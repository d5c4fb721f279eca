import Pintos.Userprog.Arguments
import Pintos.Userprog.Executables

/-!
# Userprog — the stack of a loaded program

`load` from the command line to the stack.

* `arguments_round_trip`: where the image of the arguments fits into the page, a program that could
  be loaded finds them by the calling convention of C.
* `arguments_in_page_iff`: `load` writes into the stack page only, or fails, exactly if the image
  fits or `load` ends before it has a stack page.  There is no test of the size: `process_execute`
  cuts a command line at 4095 characters, but 2048 arguments of one letter take 12304 bytes.

`load` is what comes before the arguments, which writes nothing (`load_image`), and the rest
(`load_eq`).
-/

namespace Pintos
open Support List
open Prog (ends_bind ends_op ends_pure)

section Load

variable {K : Type} {I : FsApi K} {env : Env} {c : Caller K}
  {token save_ptr : List UInt8} {file_name : List UInt8}

/-! ### What the parts of `load` call -/

-- the arithmetic of the headers is not to be evaluated
attribute [local irreducible] wrap32 ptr

/-- The operation does not write into the memory of the user. -/
def no_writes : SysOp → Prop
  | .store _ _ => False
  | _ => True

theorem no_writes_on_fs {α : Type} (p : FsProg α) : (on_fs p).Calls no_writes fun _ => True :=
  Prog.Calls.embed (fun _ _ _ => trivial) (Prog.calls_any p) ()

theorem no_writes_load_segment_loop (writable : Bool) (turns : Nat) :
    ∀ file upage read_bytes zero_bytes,
      (load_segment_loop writable turns file upage read_bytes zero_bytes).Calls no_writes
        fun _ => True := by
  induction turns with
  | zero =>
    intro file upage read_bytes zero_bytes
    rw [load_segment_loop]
    exact .ite (.pure trivial) (no_writes_on_fs _)
  | succ turns ih =>
    intro file upage read_bytes zero_bytes
    rw [load_segment_loop]
    refine .ite (.pure trivial) (.op_bind trivial fun kpage => .ite ?_ (.pure trivial))
    refine (no_writes_on_fs _).bind fun r _ => .ite ?_ (.pure trivial)
    exact .op_bind trivial fun installed => .ite (ih ..) (.pure trivial)

theorem no_writes_load_phdr (file : OpenFile) (phdr : List UInt8) :
    (load_phdr file phdr).Calls no_writes fun _ => True := by
  refine (no_writes_on_fs _).bind fun length _ => .ite (.ite ?_ (no_writes_on_fs _)) (.pure trivial)
  exact (no_writes_on_fs _).bind fun file _ => no_writes_load_segment_loop ..

theorem no_writes_load_phdrs (n : Nat) : ∀ file file_ofs,
    (load_phdrs n file file_ofs).Calls no_writes fun _ => True := by
  induction n with
  | zero => exact fun _ _ => .pure trivial
  | succ n ih =>
    intro file file_ofs
    refine (no_writes_on_fs _).bind fun length _ => .ite (.pure trivial) ?_
    refine (no_writes_on_fs _).bind fun file _ => (no_writes_on_fs _).bind fun r _ =>
      .ite ?_ (.pure trivial)
    split
    · exact ih ..
    · exact .pure trivial
    · exact (no_writes_load_phdr ..).bind fun s _ => .ite (ih ..) (.pure trivial)

theorem no_writes_setup_stack : setup_stack.Calls no_writes fun _ => True :=
  .op_bind trivial fun _ => .ite (.op trivial) (.pure trivial)

theorem no_writes_load_done (success : Bool) (file : OpenFile) :
    (load_done success file).Calls no_writes fun _ => True := by
  refine .op_bind trivial fun byte => .ite ?_ (no_writes_on_fs _)
  exact (no_writes_on_fs _).bind fun r _ => no_writes_on_fs _

/-! ### Before the arguments -/

/-- What `load` has when it comes to the arguments, or the file that it has open when it fails
before. -/
inductive Image where
  | ready (file : OpenFile) (e_entry : Nat) (token save_ptr : List UInt8)
  | failed (file : Option OpenFile)

/-- The stack page is there. -/
def Image.isReady : Image → Bool
  | .ready .. => true
  | .failed _ => false

/-- The open file, up to `setup_stack`. -/
def load_image_file (file : OpenFile) (token save_ptr : List UInt8) : SysProg Image := do
  let r ← on_fs (file_read file EHDR_SIZE)
  if Ehdr.valid r.1 then do
    let s ← load_phdrs (Ehdr.e_phnum r.1) r.2 (wrap32 (Ehdr.e_phoff r.1))
    if s.1 then do
      let stack ← setup_stack
      if stack then pure (.ready s.2 (Ehdr.e_entry r.1) token save_ptr)
      else pure (.failed (some s.2))
    else pure (.failed (some s.2))
  else pure (.failed (some r.2))

/-- `load` up to `setup_stack`. -/
def load_image (file_name : List UInt8) : SysProg Image := do
  let pagedir ← sys .pagedir_create
  if pagedir then
    match strtok_r (c_string file_name) [32] with
    | none => on_fs assert_failed
    | some (token, save_ptr) => do
      let current_dir ← sys .current_dir
      match ← on_fs (filesys_open current_dir token) with
      | none => pure (.failed none)
      | some file => load_image_file file token save_ptr
  else pure (.failed none)

/-- `load` from the arguments on. -/
def load_rest : Image → SysProg (Option (Nat × Nat))
  | .ready file e_entry token save_ptr => do
    let esp ← setup_arguments token save_ptr
    load_done true file
    pure (some (e_entry, esp))
  | .failed (some file) => do
    load_done false file
    pure none
  | .failed none => pure none

theorem load_file_eq (file : OpenFile) (token save_ptr : List UInt8) :
    (do
      let r ← load_file file token save_ptr
      load_done r.1.isSome r.2
      pure r.1 : SysProg (Option (Nat × Nat))) =
      load_image_file file token save_ptr >>= load_rest := by
  rw [load_file, load_image_file, Prog.assoc, Prog.assoc]
  refine congrArg _ (funext fun r => ?_)
  split_ifs
  · rw [Prog.assoc, Prog.assoc]
    refine congrArg _ (funext fun s => ?_)
    split_ifs
    · rw [Prog.assoc, Prog.assoc]
      refine congrArg _ (funext fun stack => ?_)
      split_ifs
      · rw [Prog.assoc]
        rfl
      · rfl
    · rfl
  · rfl

/-- `load` is what comes before the arguments, and the rest. -/
theorem load_eq (file_name : List UInt8) : load file_name = load_image file_name >>= load_rest := by
  rw [load, load_image, Prog.assoc]
  refine congrArg _ (funext fun pagedir => ?_)
  split_ifs
  · cases strtok_r (c_string file_name) [32] with
    | none => exact congrArg (Prog.call (SysOp.fs .panic)) (funext fun (r : Empty) => nomatch r)
    | some r =>
      dsimp only
      rw [Prog.assoc]
      refine congrArg _ (funext fun cwd => ?_)
      rw [Prog.assoc]
      refine congrArg _ (funext fun file => ?_)
      cases file with
      | none => rfl
      | some file => exact load_file_eq ..
  · rfl

/-- The tokens of an image are those of the command line. -/
def Image.FromLine (file_name : List UInt8) : Image → Prop
  | .ready _ _ token save_ptr => strtok_r (c_string file_name) [32] = some (token, save_ptr)
  | .failed _ => True

/-- Nothing is written before the arguments. -/
theorem no_writes_load_image (file_name : List UInt8) :
    (load_image file_name).Calls no_writes (Image.FromLine file_name) := by
  refine .op_bind trivial fun pagedir => .ite ?_ (.pure trivial)
  cases hr : strtok_r (c_string file_name) [32] with
  | none => exact ⟨trivial, fun (r : Empty) => nomatch r⟩
  | some r =>
    refine .op_bind trivial fun cwd => (no_writes_on_fs _).bind fun file _ => ?_
    cases file with
    | none => exact .pure trivial
    | some file =>
      refine (no_writes_on_fs _).bind fun r _ => .ite ?_ (.pure trivial)
      refine (no_writes_load_phdrs ..).bind fun s _ => .ite ?_ (.pure trivial)
      exact no_writes_setup_stack.bind fun stack _ => .ite (.pure hr) (.pure trivial)

/-! ### The stack page -/

/-- `setup_stack` maps a zero page. -/
theorem setup_stack_ends : (setup_stack.run (sys_api I env)).Ends c fun stack c' =>
    stack = true → c'.HasStack ∧ ZeroBelow c'.memory PHYS_BASE := by
  refine ends_bind (Q := fun _ _ => True) (fun _ _ _ _ => trivial) fun kpage c₁ _ => ?_
  split
  · refine ends_op (Machine.Ends.get_bind (Machine.Ends.modify_bind ?_))
    refine Machine.Ends.ite (fun _ => Machine.Ends.pure nofun) fun _ => ?_
    refine Machine.Ends.modify_bind (Machine.Ends.pure fun _ => ⟨?_, fun a h₁ h₂ => ?_⟩)
    · exact Finset.mem_insert.mpr (.inl rfl)
    · have hpage : a / PGSIZE = (PHYS_BASE - PGSIZE) / PGSIZE := by
        simp only [PHYS_BASE, PGSIZE] at h₁ h₂ ⊢
        omega
      simp only [if_pos hpage]
      rfl
  · exact ends_pure nofun

/-- The end of `load` leaves the memory of the user alone. -/
theorem load_done_ends (success : Bool) (file : OpenFile) :
    ((load_done success file).run (sys_api I env)).Ends c fun _ c' => c'.memory = c.memory := by
  have hfs : ∀ {α : Type} (p : FsProg α) {c₁ : Caller K}, c₁.memory = c.memory →
      ((on_fs p).run (sys_api I env)).Ends c₁ fun _ c' => c'.memory = c.memory :=
    fun p c₁ h => on_fs_ends fun _ _ _ _ => h
  refine ends_bind (ends_op (Machine.Ends.pure (Q := fun _ c' => c' = c) rfl)) ?_
  rintro byte _ rfl
  split
  · exact ends_bind (hfs _ rfl) fun r c₁ h => hfs _ h
  · exact hfs _ rfl

/-! ### Round trip -/

/-- The first token and those that follow are the tokens of the command line. -/
theorem command_line {file_name token save_ptr : List UInt8}
    (h : strtok_r (c_string file_name) [32] = some (token, save_ptr)) :
    tokens (c_string file_name) [32] = token :: tokens save_ptr [32] ∧ token ≠ [] ∧
      ∀ s ∈ token :: tokens save_ptr [32], ∀ x ∈ s, x ≠ 0 := by
  obtain ⟨htokens, hne, -⟩ := strtok_r_some h
  refine ⟨htokens, hne, fun s hs x hx => ?_⟩
  rw [← htokens] at hs
  have hmem := mem_takeWhile_imp (mem_of_mem_tokens hs hx)
  simpa using hmem

/-- When `load` comes to the arguments, the stack page is mapped, and it is zero. -/
theorem load_image_ends : ((load_image file_name).run (sys_api I env)).Ends c fun r c' =>
    r.FromLine file_name ∧ (r.isReady = true → c'.HasStack ∧ ZeroBelow c'.memory PHYS_BASE) := by
  have hline : ((load_image file_name).run (sys_api I env)).Ends c fun r _ =>
      r.FromLine file_name := ((no_writes_load_image file_name).ends (P := fun _ => True)
    (fun _ _ _ _ _ _ _ _ => trivial) trivial).mono fun _ _ h => h.1
  refine fun es r c' hr => ⟨hline hr, ?_⟩
  suffices hstack : ((load_image file_name).run (sys_api I env)).Ends c fun r c' =>
      r.isReady = true → c'.HasStack ∧ ZeroBelow c'.memory PHYS_BASE from hstack hr
  refine ends_bind (Q := fun _ _ => True) (fun _ _ _ _ => trivial) fun pagedir c₁ _ => ?_
  split
  · split
    · exact Machine.Ends.bind (Q := fun _ _ => True) (fun _ _ _ _ => trivial)
        fun (r : Empty) => nomatch r
    · refine ends_bind (Q := fun _ _ => True) (fun _ _ _ _ => trivial) fun cwd c₂ _ => ?_
      refine ends_bind (Q := fun _ _ => True) (fun _ _ _ _ => trivial) fun file c₃ _ => ?_
      split
      · exact ends_pure nofun
      · refine ends_bind (Q := fun _ _ => True) (fun _ _ _ _ => trivial) fun r c₄ _ => ?_
        split
        · refine ends_bind (Q := fun _ _ => True) (fun _ _ _ _ => trivial) fun s c₅ _ => ?_
          split
          · refine ends_bind setup_stack_ends fun stack c₆ hstack => ?_
            split
            · exact ends_pure fun _ => hstack ‹_›
            · exact ends_pure nofun
          · exact ends_pure nofun
        · exact ends_pure nofun
  · exact ends_pure nofun

/-- **Arguments round-trip.**  For a command line whose image fits into the stack page: on every
machine, what a program that could be loaded finds on its stack are the tokens of the command line;
and where the stack page has been mapped, building the stack returns. -/
theorem arguments_round_trip (I : FsApi K) (env : Env) (c : Caller K)
    (file_name : List UInt8)
    (hfits : stack_image (tokens (c_string file_name) [32]) ≤ PGSIZE) :
    (((load file_name).run (sys_api I env)).Ends c fun r c' => ∀ eip esp, r = some (eip, esp) →
      ArgumentStack c'.memory esp (tokens (c_string file_name) [32])) ∧
    ∀ token save_ptr, strtok_r (c_string file_name) [32] = some (token, save_ptr) →
      c.HasStack → ZeroBelow c.memory PHYS_BASE →
      ((setup_arguments token save_ptr).run (sys_api I env)).Returns c fun esp c' =>
        ArgumentStack c'.memory esp (tokens (c_string file_name) [32]) := by
  constructor
  · rw [load_eq]
    refine ends_bind load_image_ends ?_
    rintro r c₁ ⟨hline, hstack⟩
    cases r with
    | ready file e_entry token save_ptr =>
      obtain ⟨hc, hzero⟩ := hstack rfl
      obtain ⟨htokens, hne, hnz⟩ := command_line hline
      rw [htokens] at hfits ⊢
      refine ends_bind (Q := fun esp c' =>
        ArgumentStack c'.memory esp (token :: tokens save_ptr [32])) ?_ fun esp c₂ h => ?_
      · intro es esp c₂ hr
        obtain ⟨m', ⟨-, hargs⟩, rfl⟩ :=
          ((onStack_setup_arguments hne hnz hfits hzero).returns hc).of_done hr
        exact hargs
      · refine ends_bind (load_done_ends _ _) fun _ c₃ hm => ends_pure fun eip esp' heq => ?_
        cases heq
        rw [hm]
        exact h
    | failed file =>
      cases file with
      | none => exact ends_pure nofun
      | some file =>
        exact ends_bind (Q := fun _ _ => True) (fun _ _ _ _ => trivial) fun _ _ _ => ends_pure nofun
  · intro token save_ptr hr hc hzero
    obtain ⟨htokens, hne, hnz⟩ := command_line hr
    rw [htokens] at hfits ⊢
    refine ((onStack_setup_arguments hne hnz hfits hzero).returns hc).mono ?_
    rintro esp _ ⟨m', ⟨-, hargs⟩, rfl⟩
    exact hargs

/-! ### Staying in the page -/

/-- A word that is written into the page leaves room for it. -/
theorem room_of_stays {byte : UInt8} {bytes : List UInt8} {sp n : Nat} (hn : n ≤ PGSIZE)
    (hlow : PHYS_BASE - PGSIZE ≤ sp) (hsp : sp ≤ PHYS_BASE)
    (h : (store_bytes (byte :: bytes) (sp - n)).Stays (sys_api I env) writes_in_page c) :
    PHYS_BASE - PGSIZE + n ≤ sp := by
  have hin := stays_store_bytes h
  simp only [InStack, ptr, PHYS_BASE, PGSIZE] at hin hn hlow hsp ⊢
  omega

/-- After a word that is written into the page the program goes on. -/
theorem stays_store_word {β : Type} {f : Unit → SysProg β} {v sp n : Nat}
    (h : (store_bytes (Bytes.le32 v) (sp - n) >>= f).Stays (sys_api I env) writes_in_page c)
    (hc : c.HasStack) (hn : 4 ≤ n) (hn' : n ≤ PGSIZE) (hlow : PHYS_BASE - PGSIZE ≤ sp)
    (hsp : sp ≤ PHYS_BASE) :
    PHYS_BASE - PGSIZE + n ≤ sp ∧
      ∃ m, (f ()).Stays (sys_api I env) writes_in_page (c.setMemory m) := by
  have hroom := room_of_stays hn' hlow hsp (Prog.stays_bind.mp h).1
  obtain ⟨_, m, -, hrest⟩ := (onStack_store_word (by omega) (by omega)).stays_bind hc h
  exact ⟨hroom, m, hrest⟩

theorem room_of_push_addresses {args : List (List UInt8)} : ∀ {sp a : Nat} {c : Caller K},
    c.HasStack → PHYS_BASE - PGSIZE ≤ sp → sp ≤ a → a + packed args ≤ PHYS_BASE →
    Ascending c.memory a args →
    (push_addresses args.length sp a).Stays (sys_api I env) writes_in_page c →
      PHYS_BASE - PGSIZE + 4 * args.length ≤ sp := by
  induction args with
  | nil => exact fun _ h _ _ _ _ => h
  | cons s args ih =>
    intro sp a c hc hlow hsp htop hasc h
    rw [length_cons, push_addresses] at h
    have hroom := room_of_stays (by decide) hlow (by omega) (Prog.stays_bind.mp h).1
    obtain ⟨hstore, hload, -, -, hrest⟩ := hasc.push_address hroom hsp htop
    rw [packed_cons] at htop
    obtain ⟨_, _, rfl, h₁⟩ := hstore.stays_bind hc h
    obtain ⟨_, _, ⟨rfl, rfl⟩, h₂⟩ :=
      hload.stays_bind (c := c.setMemory (poke c.memory (sp - 4) (Bytes.le32 a))) hc h₁
    have := ih (c := c.setMemory (poke c.memory (sp - 4) (Bytes.le32 a))) hc (by omega) (by omega)
      (by omega) hrest h₂
    rw [length_cons]
    omega

/-- If all that is written while the stack is built lies in the page, the image fits. -/
theorem fits_of_stays (hne : token ≠ []) (hnz : ∀ s ∈ token :: tokens save_ptr [32], ∀ x ∈ s, x ≠ 0)
    (hpacked : packed (token :: tokens save_ptr [32]) ≤ PGSIZE) (hc : c.HasStack)
    (hzero : ZeroBelow c.memory PHYS_BASE)
    (h : (setup_arguments token save_ptr).Stays (sys_api I env) writes_in_page c) :
    stack_image (token :: tokens save_ptr [32]) ≤ PGSIZE := by
  have hbase : PGSIZE ≤ PHYS_BASE := by decide
  rw [setup_arguments] at h
  obtain ⟨_, m₁, ⟨rfl, hstrings⟩, h₁⟩ := (onStack_strings hne hnz hpacked hzero).stays_bind hc h
  generalize token :: tokens save_ptr [32] = args at hpacked hstrings h₁ ⊢
  -- the null word
  have hnull := room_of_stays (by decide) (by omega) (by omega) (Prog.stays_bind.mp h₁).1
  obtain ⟨_, m₁, rfl, h₂⟩ := (onStack_null (m := m₁) ⟨by omega, by omega⟩
    (hstrings.zero _ (by omega) (by omega))).stays_bind (c := c.setMemory m₁) hc h₁
  -- the addresses
  have hlen : args.reverse.length = args.length := length_reverse
  have haddresses := room_of_push_addresses (c := c.setMemory m₁) hc (by omega) (by omega)
    (by rw [packed_reverse]; omega) hstrings.strings (Prog.stays_bind.mp h₂).1
  rw [hlen] at haddresses
  obtain ⟨_, m₂, ⟨rfl, -⟩, h₃⟩ :=
    (hstrings.onStack_addresses (by omega)).stays_bind (c := c.setMemory m₁) hc h₂
  -- `argv`, `argc` and the return address
  obtain ⟨-, m₃, h₄⟩ := stays_store_word h₃ hc le_rfl (by decide) (by omega) (by omega)
  obtain ⟨-, m₄, h₅⟩ := stays_store_word h₄ hc (by decide) (by decide) (by omega) (by omega)
  obtain ⟨hlast, -⟩ := stays_store_word h₅ hc (by decide) (by decide) (by omega) (by omega)
  rw [stack_image]
  omega

/-! ### The arguments in the page -/

/-- `load` fails, or all it writes lies in the stack page. -/
def ArgumentsInPage (I : FsApi K) (env : Env) (c : Caller K)
    (file_name : List UInt8) : Prop :=
  (load file_name).Finishes (sys_api I env) (fun r => r = none) c ∨
    (load file_name).Stays (sys_api I env) writes_in_page c

theorem no_writes.in_page {o : SysOp} (h : no_writes o) : writes_in_page o := by
  cases o with
  | store a byte => exact h.elim
  | _ => trivial

/-- `load` comes to the arguments: there are a page directory, the file, a valid header, its
segments and a stack page. -/
def ReachesStack (I : FsApi K) (env : Env) (c : Caller K)
    (file_name : List UInt8) : Prop :=
  (load_image file_name).Finishes (sys_api I env) (fun r => r.isReady = true) c

/-- If the image fits, or `load` does not come to the arguments, all that it writes lies in the
page. -/
theorem load_stays (h : stack_image (tokens (c_string file_name) [32]) ≤ PGSIZE ∨
      ¬ ReachesStack I env c file_name) :
    (load file_name).Stays (sys_api I env) writes_in_page c := by
  have hdone : ∀ {success file c'}, (load_done success file).Stays (sys_api I env)
      writes_in_page c' := (no_writes_load_done ..).stays.mono fun _ => no_writes.in_page
  rw [load_eq]
  refine Prog.stays_bind.mpr ⟨(no_writes_load_image _).stays.mono fun _ => no_writes.in_page,
    fun es r c₁ hr => ?_⟩
  obtain ⟨hline, hstack⟩ := load_image_ends hr
  cases r with
  | ready file e_entry token save_ptr =>
    obtain ⟨hc, hzero⟩ := hstack rfl
    obtain ⟨htokens, hne, hnz⟩ := command_line hline
    have hfits := h.resolve_right fun hno => hno ⟨es, _, c₁, hr, rfl⟩
    rw [htokens] at hfits
    exact Prog.stays_bind.mpr ⟨(onStack_setup_arguments hne hnz hfits hzero).stays hc,
      fun _ _ _ _ => Prog.stays_bind.mpr ⟨hdone, fun _ _ _ _ => trivial⟩⟩
  | failed file =>
    cases file with
    | none => trivial
    | some file => exact Prog.stays_bind.mpr ⟨hdone, fun _ _ _ _ => trivial⟩

theorem ArgumentsInPage.fits (hlen : (c_string file_name).length < PGSIZE)
    (h : ArgumentsInPage I env c file_name) (hreach : ReachesStack I env c file_name) :
    stack_image (tokens (c_string file_name) [32]) ≤ PGSIZE := by
  obtain ⟨es, r, c₁, hr, hready⟩ := hreach
  obtain ⟨hline, hstack⟩ := load_image_ends hr
  obtain ⟨hc, hzero⟩ := hstack hready
  cases r with
  | failed file => cases hready
  | ready file e_entry token save_ptr =>
    obtain ⟨htokens, hne, hnz⟩ := command_line hline
    rw [ArgumentsInPage, load_eq] at h
    rcases h with h | h
    · -- a stack that has been built is returned
      obtain ⟨es', r', c', hrun, c₂, hrest⟩ := h.of_bind
      cases hr.symm.trans hrun
      obtain ⟨_, _, _, _, _, hdone⟩ := hrest.of_bind
      obtain ⟨_, _, _, _, _, hnone⟩ := hdone.of_bind
      exact nomatch Prog.finishes_pure.mp hnone
    · have hstays := (Prog.stays_bind.mp ((Prog.stays_bind.mp h).2 _ _ _ hr)).1
      have hpacked : packed (tokens (c_string file_name) [32]) ≤ (c_string file_name).length + 1 :=
        sum_tokens_le
      rw [htokens] at hpacked ⊢
      exact fits_of_stays hne hnz (by omega) hc hzero hstays

/-- **Arguments in the stack page.**  `load` of the string that `process_execute` passes on fails,
or writes into the stack page only, exactly if the image of the arguments fits into the page or
`load` ends before it has a stack page. -/
theorem arguments_in_page_iff (I : FsApi K) (env : Env) (c : Caller K)
    (file_name : List UInt8) :
    ArgumentsInPage I env c (strlcpy file_name PGSIZE) ↔
      stack_image (tokens (c_string (strlcpy file_name PGSIZE)) [32]) ≤ PGSIZE ∨
        ¬ ReachesStack I env c (strlcpy file_name PGSIZE) := by
  refine ⟨fun h => ?_, fun h => .inr (load_stays h)⟩
  have hlen := length_c_string_strlcpy file_name PGSIZE
  refine or_iff_not_imp_right.mpr fun hreach => h.fits ?_ (not_not.mp hreach)
  simp only [PGSIZE] at hlen ⊢
  omega

end Load

/-- A process that is to load the program `a`. -/
def programCaller : Caller Fs := { chdirCaller with fs := programOs.fs, pool := fun _ => true }

/-- `a b` is loaded, and finds its two arguments. -/
theorem arguments_round_trip_two : ∃ es eip esp c',
    (load [97, 32, 98]).run (sys_api disk_api quietEnv) programCaller =
      (es, .done (some (eip, esp)) c') ∧ ArgumentStack c'.memory esp [[97], [98]] := by
  have hrun : ((returned ((load [97, 32, 98]).run (sys_api disk_api quietEnv)
      programCaller)).bind fun r => r.2.1).isSome = true := by decide +kernel
  obtain ⟨⟨eip, esp⟩, hr⟩ := Option.isSome_iff_exists.mp hrun
  obtain ⟨⟨es, r, c'⟩, hdone, hsome⟩ := Option.bind_eq_some_iff.mp hr
  obtain rfl : r = some (eip, esp) := hsome
  have hfits : stack_image (tokens (c_string [97, 32, 98]) [32]) ≤ PGSIZE := by decide
  have htokens : tokens (c_string [97, 32, 98]) [32] = [[97], [98]] := by decide
  have hstack := (arguments_round_trip disk_api quietEnv programCaller [97, 32, 98] hfits).1
    (returned_eq_some hdone) eip esp rfl
  rw [htokens] at hstack
  exact ⟨es, eip, esp, c', returned_eq_some hdone, hstack⟩

/-- `a` with 680 arguments of one letter. -/
def many_arguments : List UInt8 := (List.replicate 681 [97, 32]).flatten

/-- The file of `a` is loaded, and its stack leaves the page. -/
theorem many_arguments_leave_page :
    ¬ ArgumentsInPage disk_api quietEnv programCaller (strlcpy many_arguments PGSIZE) := by
  have hrun : ((returned ((load_image (strlcpy many_arguments PGSIZE)).run
      (sys_api disk_api quietEnv) programCaller)).any fun r => r.2.1.isReady) = true := by
    decide +kernel
  obtain ⟨⟨es, r, c'⟩, hr, hready⟩ := (Option.any_eq_true _ _).mp hrun
  intro h
  have hlen := length_c_string_strlcpy many_arguments PGSIZE
  have hfits := h.fits (by simp only [PGSIZE] at hlen ⊢; omega)
    ⟨es, r, c', returned_eq_some hr, hready⟩
  revert hfits
  decide +kernel

end Pintos
