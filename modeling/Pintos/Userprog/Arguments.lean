import Mathlib.Tactic
import Pintos.Userprog.Load
import Pintos.Userprog.UserMemory

/-!
# Userprog — the arguments on the stack

What `load` builds at the top of the stack page: the strings of the command line, packed downwards,
a null word, the addresses of the strings, `argv`, `argc` and a return address.  The terminators of
the strings, and three bytes of the null word, are never written: they are there because the page
is zero.

`OnStack Q p m` is a contract for programs that read and write the stack page and do nothing else.
On a process that has the page mapped such a program returns (`OnStack.returns`), and all it touches
is in the page (`OnStack.stays`).

`onStack_setup_arguments`: on a zero page that has room for the image of the arguments, a program
finds them by the calling convention of C (`ArgumentStack`).
-/

namespace Pintos
open Support Function List
open Bytes (le32 length_le32)

/-! ### Bytes in memory -/

/-- `m` after the bytes are written from `a` on. -/
def poke (m : Nat → UInt8) (a : Nat) : List UInt8 → (Nat → UInt8)
  | [] => m
  | byte :: bytes => poke (update m a byte) (a + 1) bytes

/-- The word at `a`. -/
def word32 (m : Nat → UInt8) (a : Nat) : Nat :=
  Bytes.word (m a) (m (a + 1)) (m (a + 2)) (m (a + 3))

/-- The null-terminated string `s` is at `a`. -/
structure StringAt (m : Nat → UInt8) (a : Nat) (s : List UInt8) : Prop where
  bytes : ∀ i < s.length, m (a + i) = s.getD i 0
  nonzero : ∀ c ∈ s, c ≠ 0
  null : m (a + s.length) = 0

section Poke

variable {m m' : Nat → UInt8} {a x : Nat} {bytes s : List UInt8}

theorem poke_of_outside (h : x < a ∨ a + bytes.length ≤ x) : poke m a bytes x = m x := by
  induction bytes generalizing m a with
  | nil => rfl
  | cons byte bytes ih =>
    rw [length_cons] at h
    rw [poke, ih (by omega)]
    exact update_of_ne (by omega) _ _

theorem poke_of_lt {i : Nat} (h : i < bytes.length) : poke m a bytes (a + i) = bytes.getD i 0 := by
  induction bytes generalizing m a i with
  | nil => exact absurd h (Nat.not_lt_zero i)
  | cons byte bytes ih =>
    cases i with
    | zero =>
      rw [poke, poke_of_outside (by omega)]
      exact update_self ..
    | succ i =>
      rw [poke, show a + (i + 1) = a + 1 + i by omega, ih (Nat.lt_of_succ_lt_succ h)]
      rfl

theorem word32_poke {v : Nat} (h : v < 2 ^ 32) : word32 (poke m a (le32 v)) a = v := by
  have hb : ∀ i < 4, poke m a (le32 v) (a + i) = (le32 v).getD i 0 := fun i hi =>
    poke_of_lt (by rw [length_le32]; exact hi)
  have h₀ := hb 0 (by omega)
  rw [Nat.add_zero] at h₀
  rw [word32, h₀, hb 1 (by omega), hb 2 (by omega), hb 3 (by omega)]
  exact (Bytes.word_le32 v).trans (Nat.mod_eq_of_lt h)

theorem word32_congr (h : ∀ i < 4, m' (a + i) = m (a + i)) : word32 m' a = word32 m a := by
  have h₀ := h 0 (by omega)
  rw [Nat.add_zero] at h₀
  rw [word32, word32, h₀, h 1 (by omega), h 2 (by omega), h 3 (by omega)]

theorem StringAt.congr (h : StringAt m a s) (hm : ∀ i ≤ s.length, m' (a + i) = m (a + i)) :
    StringAt m' a s :=
  ⟨fun i hi => (hm i hi.le).trans (h.bytes i hi), h.nonzero, (hm _ le_rfl).trans h.null⟩

theorem StringAt.poke (hs : ∀ c ∈ s, c ≠ 0) (hnull : m (a + s.length) = 0) :
    StringAt (poke m a s) a s :=
  ⟨fun _ hi => poke_of_lt hi, hs, (poke_of_outside (by omega)).trans hnull⟩

end Poke

/-! ### Programs on the stack page -/

/-- A byte of the page that `setup_stack` maps. -/
def InStack (a : Nat) : Prop := PHYS_BASE - PGSIZE ≤ a ∧ a < PHYS_BASE

/-- The operation reads or writes a byte of the stack page. -/
def stack_ok (_ : Nat → UInt8) : SysOp → Prop
  | .load a | .store a _ => InStack a
  | _ => False

/-- The answers, and what memory holds then. -/
def stack_answer (m : Nat → UInt8) : ∀ o : SysOp, o.Res → (Nat → UInt8) → Prop
  | .load a, r, m' => r = m a ∧ m' = m
  | .store a byte, _, m' => m' = update m a byte
  | _, _, _ => False

/-- `p` works on the stack page alone, and then meets `Q`. -/
abbrev OnStack {α : Type} (Q : α → (Nat → UInt8) → Prop) (p : SysProg α) (m : Nat → UInt8) : Prop :=
  p.Meets stack_ok stack_answer Q m

/-- The stack page is mapped. -/
def Caller.HasStack {K : Type} (c : Caller K) : Prop := PHYS_BASE / PGSIZE - 1 ∈ c.pagedir

/-- `c` with the contents `m` of memory. -/
def Caller.setMemory {K : Type} (c : Caller K) (m : Nat → UInt8) : Caller K :=
  { c with memory := m }

theorem InStack.ptr_eq {a : Nat} (h : InStack a) : ptr a = a :=
  Nat.mod_eq_of_lt (h.2.trans (by decide))

theorem InStack.userMapped {K : Type} {c : Caller K} {a : Nat} (h : InStack a) (hc : c.HasStack) :
    UserMapped c.pagedir a := by
  refine ⟨h.2, ?_⟩
  have hpage : a / PGSIZE = PHYS_BASE / PGSIZE - 1 := by
    obtain ⟨h₁, h₂⟩ := h
    simp only [PHYS_BASE, PGSIZE] at h₁ h₂ ⊢
    omega
  rw [hpage]
  exact hc

section OnStack

variable {K : Type} {I : FsApi K} {env : Env} {c : Caller K}
  {α β : Type} {m : Nat → UInt8} {p : SysProg α} {Q : α → (Nat → UInt8) → Prop} {a : Nat}
  {bytes : List UInt8}

/-- A process that has the page answers as the contract says. -/
theorem sys_api_stack (hc : c.HasStack) (o : SysOp) (m : Nat → UInt8) (s : Caller K)
    (ho : stack_ok m o) (hs : s = c.setMemory m) :
    (sys_api I env o).Returns s fun r s' => ∃ m', stack_answer m o r m' ∧ s' = c.setMemory m' := by
  subst hs
  cases o with
  | load a =>
    have hmapped : UserMapped (c.setMemory m).pagedir a := InStack.userMapped ho hc
    refine Machine.Returns.get_bind ?_
    rw [if_pos hmapped]
    exact Machine.Returns.pure ⟨m, ⟨rfl, rfl⟩, rfl⟩
  | store a byte =>
    have hmapped : UserMapped (c.setMemory m).pagedir a := InStack.userMapped ho hc
    refine Machine.Returns.get_bind ?_
    rw [if_pos hmapped]
    exact Machine.Returns.modify ⟨_, rfl, rfl⟩
  | _ => exact ho.elim

theorem OnStack.returns (h : OnStack Q p c.memory) (hc : c.HasStack) :
    (p.run (sys_api I env)).Returns c fun a c' => ∃ m', Q a m' ∧ c' = c.setMemory m' :=
  Prog.Meets.returns (R := fun m s => s = c.setMemory m) (sys_api_stack hc) h rfl

/-- What a run writes while it builds the stack lies in the page. -/
def writes_in_page : SysOp → Prop
  | .store a _ => InStack a
  | _ => True

theorem OnStack.stays (h : OnStack Q p c.memory) (hc : c.HasStack) :
    p.Stays (sys_api I env) writes_in_page c := by
  refine Prog.Meets.stays (R := fun m s => s = c.setMemory m) (fun o m s ho hs => ?_) ?_ h rfl
  · intro es r s' hr
    exact (sys_api_stack hc o m s ho hs).of_done hr
  · intro m o ho
    cases o with
    | store a byte => exact ho
    | load a => trivial
    | _ => exact ho.elim

/-- A part that works on the page returns, and what follows it writes into the page. -/
theorem OnStack.stays_bind {f : α → SysProg β} (h : OnStack Q p c.memory) (hc : c.HasStack)
    (hs : (p >>= f).Stays (sys_api I env) writes_in_page c) : ∃ a m', Q a m' ∧
      (f a).Stays (sys_api I env) writes_in_page (c.setMemory m') := by
  have hreturns : (p.run (sys_api I env)).Returns c _ := h.returns hc
  obtain ⟨es, a, c', hr, m', hQ, rfl⟩ := hreturns
  exact ⟨a, m', hQ, (Prog.stays_bind.mp hs).2 es a _ hr⟩

theorem onStack_load {Q : UInt8 → (Nat → UInt8) → Prop} (ha : InStack a) (hQ : Q (m a) m) :
    OnStack Q (sys (.load (ptr a))) m := by
  rw [ha.ptr_eq]
  refine ⟨ha, ?_⟩
  rintro r m' ⟨rfl, rfl⟩
  exact hQ

theorem onStack_store_bytes {Q : Unit → (Nat → UInt8) → Prop}
    (ha : ∀ i < bytes.length, InStack (a + i)) (hQ : Q () (poke m a bytes)) :
    OnStack Q (store_bytes bytes a) m := by
  induction bytes generalizing m a with
  | nil => exact hQ
  | cons byte bytes ih =>
    have h₀ : InStack a := ha 0 (Nat.succ_pos _)
    rw [store_bytes, h₀.ptr_eq]
    refine Prog.Meets.op_bind h₀ ?_
    rintro ⟨⟩ m' rfl
    refine ih (fun i hi => ?_) hQ
    have := ha (i + 1) (Nat.succ_lt_succ hi)
    rwa [← Nat.add_assoc, Nat.add_right_comm] at this

/-- The first byte that is written is in the page. -/
theorem stays_store_bytes {byte : UInt8}
    (h : (store_bytes (byte :: bytes) a).Stays (sys_api I env) writes_in_page c) :
    InStack (ptr a) := h.1

theorem onStack_store_word {v a : Nat} (h₁ : PHYS_BASE - PGSIZE ≤ a) (h₂ : a + 4 ≤ PHYS_BASE) :
    OnStack (fun _ m' => m' = poke m a (le32 v)) (store_bytes (le32 v) a) m := by
  refine onStack_store_bytes (fun i hi => ?_) rfl
  rw [length_le32] at hi
  exact ⟨by omega, by omega⟩

theorem onStack_load_string_loop {s : List UInt8} {Q : List UInt8 → (Nat → UInt8) → Prop} :
    ∀ {turns a : Nat}, s.length < turns → StringAt m a s → (∀ i ≤ s.length, InStack (a + i)) →
      Q s m → OnStack Q (load_string_loop turns a) m := by
  induction s generalizing Q with
  | nil =>
    intro turns a ht hs ha hQ
    obtain ⟨turns, rfl⟩ : ∃ k, turns = k + 1 := ⟨turns - 1, by omega⟩
    have h₀ : InStack a := ha 0 le_rfl
    rw [load_string_loop]
    refine (onStack_load h₀ ?_).bind fun _ _ h => h
    have hnull : m a = 0 := hs.null
    rw [if_pos hnull]
    exact hQ
  | cons byte s ih =>
    intro turns a ht hs ha hQ
    rw [length_cons] at ht ha
    obtain ⟨turns, rfl⟩ : ∃ k, turns = k + 1 := ⟨turns - 1, by omega⟩
    have hbyte : m a = byte := hs.bytes 0 (Nat.succ_pos _)
    have hne : m a ≠ 0 := by
      rw [hbyte]
      exact hs.nonzero byte List.mem_cons_self
    have hrest : StringAt m (a + 1) s := by
      refine ⟨fun i hi => ?_, fun x hx => hs.nonzero x (List.mem_cons_of_mem _ hx), ?_⟩
      · rw [Nat.add_assoc, Nat.add_comm 1 i]
        exact hs.bytes (i + 1) (Nat.succ_lt_succ hi)
      · rw [Nat.add_assoc, Nat.add_comm 1]
        exact hs.null
    have h₀ : InStack a := ha 0 (Nat.zero_le _)
    rw [load_string_loop]
    refine (onStack_load h₀ ?_).bind fun _ _ h => h
    rw [if_neg hne]
    refine Prog.meets_bind.mpr (ih (by omega) hrest (fun i hi => ?_) ?_)
    · have := ha (i + 1) (by omega)
      rwa [← Nat.add_assoc, Nat.add_right_comm] at this
    · rw [hbyte]
      exact hQ

theorem onStack_load_string {s : List UInt8} {Q : List UInt8 → (Nat → UInt8) → Prop}
    (hs : StringAt m a s) (ha : ∀ i ≤ s.length, InStack (a + i)) (hQ : Q s m) :
    OnStack Q (load_string a) m := by
  refine onStack_load_string_loop ?_ hs ha hQ
  -- a string in the page is shorter than the page
  obtain ⟨h₁, -⟩ := ha 0 (Nat.zero_le _)
  obtain ⟨-, h₂⟩ := ha s.length le_rfl
  simp only [PHYS_BASE, PGSIZE] at h₁ h₂
  omega

end OnStack

/-! ### The strings -/

/-- The bytes that the strings take, with their terminators. -/
def packed (args : List (List UInt8)) : Nat := (args.map fun s => s.length + 1).sum

/-- The stack image of the arguments: the strings, the null word, `argc` addresses, `argv`, `argc`
and the return address. -/
def stack_image (args : List (List UInt8)) : Nat := packed args + 4 * args.length + 16

theorem packed_cons (s : List UInt8) (args : List (List UInt8)) :
    packed (s :: args) = s.length + 1 + packed args := by
  rw [packed, List.map_cons, List.sum_cons, packed]

theorem packed_reverse (args : List (List UInt8)) : packed args.reverse = packed args := by
  rw [packed, map_reverse, sum_reverse, packed]

/-- The strings are packed downwards from `top`. -/
def Packed (m : Nat → UInt8) : Nat → List (List UInt8) → Prop
  | _, [] => True
  | top, s :: args => StringAt m (top - (s.length + 1)) s ∧ Packed m (top - (s.length + 1)) args

/-- The strings are packed upwards from `a`. -/
def Ascending (m : Nat → UInt8) : Nat → List (List UInt8) → Prop
  | _, [] => True
  | a, s :: args => StringAt m a s ∧ Ascending m (a + s.length + 1) args

section Strings

variable {m m' : Nat → UInt8} {args : List (List UInt8)}

theorem Ascending.append {args args' : List (List UInt8)} : ∀ {a : Nat}, Ascending m a args →
    Ascending m (a + packed args) args' → Ascending m a (args ++ args') := by
  induction args with
  | nil => exact fun _ h => h
  | cons s args ih =>
    intro a h h'
    refine ⟨h.1, ih h.2 ?_⟩
    rw [packed_cons] at h'
    rwa [show a + s.length + 1 + packed args = a + (s.length + 1 + packed args) by omega]

/-- Read upwards, the last string comes first. -/
theorem Packed.ascending : ∀ {top : Nat}, packed args ≤ top →
    Packed m top args → Ascending m (top - packed args) args.reverse := by
  induction args with
  | nil => exact fun _ _ => trivial
  | cons s args ih =>
    intro top htop h
    rw [packed_cons] at htop ⊢
    rw [reverse_cons]
    have hrest : packed args ≤ top - (s.length + 1) := by omega
    have hlow := ih hrest h.2
    rw [show top - (s.length + 1) - packed args = top - (s.length + 1 + packed args) by omega]
      at hlow
    refine hlow.append ⟨?_, trivial⟩
    rw [packed_reverse, show top - (s.length + 1 + packed args) + packed args =
      top - (s.length + 1) by omega]
    exact h.1

theorem Ascending.congr : ∀ {a : Nat}, Ascending m a args →
    (∀ x, a ≤ x → m' x = m x) → Ascending m' a args := by
  induction args with
  | nil => exact fun _ _ => trivial
  | cons s args ih =>
    intro a h hm
    refine ⟨h.1.congr fun i _ => hm _ (by omega), ih h.2 fun x hx => hm x (by omega)⟩

/-- Bytes below `top` that are zero, as far as the page reaches. -/
def ZeroBelow (m : Nat → UInt8) (top : Nat) : Prop :=
  ∀ a, PHYS_BASE - PGSIZE ≤ a → a < top → m a = 0

/-- The arguments are copied below `top`, and nothing else changes. -/
theorem onStack_push_args {Q : Nat × Nat → (Nat → UInt8) → Prop} : ∀ {turns : Nat}
    {token save_ptr : List UInt8} {top argc : Nat} {m : Nat → UInt8}, save_ptr.length < turns →
    token ≠ [] → (∀ s ∈ token :: tokens save_ptr [32], ∀ c ∈ s, c ≠ 0) →
    PHYS_BASE - PGSIZE + packed (token :: tokens save_ptr [32]) ≤ top → top ≤ PHYS_BASE →
    ZeroBelow m top →
    (∀ m', Packed m' top (token :: tokens save_ptr [32]) →
      (∀ a, a < top - packed (token :: tokens save_ptr [32]) ∨ top ≤ a → m' a = m a) →
      Q (top - packed (token :: tokens save_ptr [32]),
        argc + (token :: tokens save_ptr [32]).length) m') →
    OnStack Q (push_args turns token save_ptr top argc) m := by
  intro turns
  induction turns with
  | zero => exact fun h => absurd h (Nat.not_lt_zero _)
  | succ turns ih =>
    intro token save_ptr top argc m hturns hne hnz hroom htop hzero hQ
    rw [packed_cons] at hroom
    set low := top - (token.length + 1) with hlow
    have hstring : StringAt (poke m low token) low token := by
      refine StringAt.poke (hnz token List.mem_cons_self) (hzero _ ?_ ?_) <;> omega
    rw [push_args]
    refine Prog.Meets.bind (onStack_store_bytes (Q := fun _ m' => m' = poke m low token)
      (fun i hi => ⟨?_, ?_⟩) rfl) ?_
    · omega
    · omega
    rintro _ m₁ rfl
    cases hr : strtok_r save_ptr [32] with
    | none =>
      rw [strtok_r_none hr] at hQ
      refine hQ _ ⟨hstring, trivial⟩ fun a ha => ?_
      rw [packed_cons, packed, map_nil, sum_nil] at ha
      exact poke_of_outside (by omega)
    | some r =>
      obtain ⟨next, rest⟩ := r
      obtain ⟨htokens, hnext, hlt⟩ := strtok_r_some hr
      rw [htokens] at hQ hnz hroom
      refine ih (by omega) hnext (fun s hs => hnz s (List.mem_cons_of_mem _ hs)) (by omega)
        (by omega) (fun a h₁ h₂ => ?_) fun m' hpacked hframe => ?_
      · rw [poke_of_outside (by omega)]
        exact hzero a h₁ (by omega)
      · have hsize : top - packed (token :: next :: tokens rest [32]) =
            low - packed (next :: tokens rest [32]) := by
          rw [packed_cons]
          omega
        have hmore := hQ m' ⟨hstring.congr fun i _ => hframe _ (.inr (by omega)), hpacked⟩
          fun a ha => ?_
        · rw [hsize, length_cons] at hmore
          rw [show argc + 1 + (next :: tokens rest [32]).length =
            argc + ((next :: tokens rest [32]).length + 1) by omega]
          exact hmore
        · rw [hsize] at ha
          rw [hframe a (by omega)]
          exact poke_of_outside (by omega)

end Strings

/-! ### The addresses of the strings -/

/-- The words downwards from `sp` are the addresses of the strings. -/
def Pointers (m : Nat → UInt8) : Nat → List (List UInt8) → Prop
  | _, [] => True
  | sp, s :: args => StringAt m (word32 m (sp - 4)) s ∧ Pointers m (sp - 4) args

section Pointers

variable {m m' : Nat → UInt8} {args : List (List UInt8)}

theorem Pointers.get : ∀ {sp i : Nat}, 4 * args.length ≤ sp → Pointers m sp args → i < args.length →
      StringAt m (word32 m (sp - 4 * (i + 1))) (args.getD i []) := by
  induction args with
  | nil => exact fun _ _ h => absurd h (Nat.not_lt_zero _)
  | cons s args ih =>
    intro sp i hsp h hi
    rw [length_cons] at hsp hi
    cases i with
    | zero => exact h.1
    | succ i =>
      have hrest : 4 * args.length ≤ sp - 4 := by omega
      have := ih hrest h.2 (Nat.lt_of_succ_lt_succ hi)
      rwa [show sp - 4 - 4 * (i + 1) = sp - 4 * (i + 1 + 1) by omega] at this

/-- One address: it is written below `sp`, and the string at `a` is read. -/
structure PushAddress (m : Nat → UInt8) (sp a : Nat) (s : List UInt8) (args : List (List UInt8)) :
    Prop where
  store : OnStack (fun _ m' => m' = poke m (sp - 4) (le32 a))
    (store_bytes (le32 a) (sp - 4)) m
  load : OnStack (fun r m' => r = s ∧ m' = poke m (sp - 4) (le32 a)) (load_string a)
    (poke m (sp - 4) (le32 a))
  frame : ∀ x, x < sp - 4 ∨ sp ≤ x → poke m (sp - 4) (le32 a) x = m x
  string : StringAt (poke m (sp - 4) (le32 a)) a s
  rest : Ascending (poke m (sp - 4) (le32 a)) (a + s.length + 1) args

theorem Ascending.push_address {sp a : Nat} {s : List UInt8} (h : Ascending m a (s :: args))
    (hlow : PHYS_BASE - PGSIZE + 4 ≤ sp) (hsp : sp ≤ a) (htop : a + packed (s :: args) ≤ PHYS_BASE)
    : PushAddress m sp a s args := by
  rw [packed_cons] at htop
  have hframe : ∀ x, x < sp - 4 ∨ sp ≤ x → poke m (sp - 4) (le32 a) x = m x := fun x hx =>
    poke_of_outside (by rw [length_le32]; omega)
  have hstring : StringAt (poke m (sp - 4) (le32 a)) a s :=
    h.1.congr fun i _ => hframe _ (by omega)
  refine ⟨onStack_store_word (by omega) (by omega), ?_, hframe, hstring, ?_⟩
  · exact onStack_load_string hstring (fun i hi => ⟨by omega, by omega⟩) ⟨rfl, rfl⟩
  · exact h.2.congr fun x hx => hframe x (by omega)

/-- The addresses of strings that are packed upwards from `a` are written below `sp`. -/
theorem onStack_push_addresses {Q : Nat → (Nat → UInt8) → Prop} :
    ∀ {sp a : Nat} {m : Nat → UInt8}, PHYS_BASE - PGSIZE + 4 * args.length ≤ sp → sp ≤ a →
    a + packed args ≤ PHYS_BASE → Ascending m a args →
    (∀ m', Pointers m' sp args → (∀ i < args.length, a ≤ word32 m' (sp - 4 * (i + 1))) →
      (∀ x, x < sp - 4 * args.length ∨ sp ≤ x → m' x = m x) → Q (sp - 4 * args.length) m') →
    OnStack Q (push_addresses args.length sp a) m := by
  induction args with
  | nil => exact fun _ _ _ _ hQ => hQ _ trivial nofun fun _ _ => rfl
  | cons s args ih =>
    intro sp a m hroom hsp htop hasc hQ
    rw [length_cons] at hroom hQ ⊢
    obtain ⟨hstore, hload, hframe, hstring, hrest⟩ := hasc.push_address (by omega) hsp htop
    rw [packed_cons] at htop
    rw [push_addresses]
    refine Prog.Meets.bind hstore ?_
    rintro _ _ rfl
    refine Prog.Meets.bind hload ?_
    rintro _ _ ⟨rfl, rfl⟩
    refine ih (by omega) (by omega) (by omega) hrest fun m' hpointers habove hlast => ?_
    have hword : word32 m' (sp - 4) = a := by
      rw [word32_congr fun i hi => hlast _ (.inr (Nat.le_add_right _ _))]
      exact word32_poke (by simp only [PHYS_BASE] at htop; omega)
    have hmore := hQ m' ⟨?_, hpointers⟩ (fun i hi => ?_) fun x hx => ?_
    · rwa [show sp - 4 * (args.length + 1) = sp - 4 - 4 * args.length by omega] at hmore
    · rw [hword]
      exact hstring.congr fun i _ => hlast _ (by omega)
    · cases i with
      | zero => exact hword.ge
      | succ i =>
        have := habove i (Nat.lt_of_succ_lt_succ hi)
        rw [show sp - 4 * (i + 1 + 1) = sp - 4 - 4 * (i + 1) by omega]
        omega
    · rw [hlast x (by omega)]
      exact hframe x (by omega)

end Pointers

/-! ### The whole stack -/

/-- What a program finds from `esp` on, by the calling convention of C. -/
structure ArgumentStack (m : Nat → UInt8) (esp : Nat) (args : List (List UInt8)) : Prop where
  return_address : word32 m esp = 0
  argc : word32 m (esp + 4) = args.length
  argv : word32 m (esp + 8) = esp + 12
  arg : ∀ i < args.length, StringAt m (word32 m (esp + 12 + 4 * i)) (args.getD i [])
  end_of_argv : word32 m (esp + 12 + 4 * args.length) = 0

section Stack

variable {m : Nat → UInt8} {args : List (List UInt8)} {token save_ptr : List UInt8}

theorem word32_zero {a : Nat} (h : ∀ i < 4, m (a + i) = 0) : word32 m a = 0 := by
  have h₀ := h 0 (by omega)
  rw [Nat.add_zero] at h₀
  rw [word32, h₀, h 1 (by omega), h 2 (by omega), h 3 (by omega)]
  rfl

/-- The addresses, counted from the last one. -/
theorem Pointers.argv {sp : Nat} (hsp : 4 * args.length ≤ sp) (h : Pointers m sp args.reverse) :
    ∀ i < args.length, StringAt m (word32 m (sp - 4 * args.length + 4 * i)) (args.getD i []) := by
  intro i hi
  have hrev := h.get (i := args.length - 1 - i) (by rwa [length_reverse])
    (by rw [length_reverse]; omega)
  rw [getD_eq_getElem _ _ (by rw [length_reverse]; omega), List.getElem_reverse] at hrev
  rw [getD_eq_getElem _ _ hi]
  have hindex : args.length - 1 - (args.length - 1 - i) = i := by omega
  simp only [hindex] at hrev
  rwa [show sp - 4 * (args.length - 1 - i + 1) = sp - 4 * args.length + 4 * i by omega] at hrev

/-- The three words on top of the addresses. -/
theorem argumentStack_of_words {sp : Nat} (hlow : 12 ≤ sp) (hsp : sp < 2 ^ 32)
    (hlen : args.length < 2 ^ 32) (top : Nat) (htop : sp + 4 * args.length ≤ top)
    (hpointers : ∀ i < args.length, StringAt m (word32 m (sp + 4 * i)) (args.getD i []) ∧
      top ≤ word32 m (sp + 4 * i)) (hnull : word32 m (sp + 4 * args.length) = 0) :
    ArgumentStack (poke (poke (poke m (sp - 4) (le32 sp)) (sp - 8)
      (le32 args.length)) (sp - 12) (le32 0)) (sp - 12) args := by
  set m₁ := poke m (sp - 4) (le32 sp) with hm₁
  set m₂ := poke m₁ (sp - 8) (le32 args.length) with hm₂
  set m₃ := poke m₂ (sp - 12) (le32 0) with hm₃
  have h₃ : ∀ x, sp - 8 ≤ x → m₃ x = m₂ x := fun x hx =>
    poke_of_outside (by rw [length_le32]; omega)
  have h₂ : ∀ x, sp - 4 ≤ x → m₃ x = m₁ x := fun x hx =>
    (h₃ x (by omega)).trans (poke_of_outside (by rw [length_le32]; omega))
  have h₁ : ∀ x, sp ≤ x → m₃ x = m x := fun x hx =>
    (h₂ x (by omega)).trans (poke_of_outside (by rw [length_le32]; omega))
  have hword : ∀ x, sp ≤ x → word32 m₃ x = word32 m x := fun x hx =>
    word32_congr fun i _ => h₁ _ (by omega)
  refine ⟨word32_poke (by decide), ?_, ?_, fun i hi => ?_, ?_⟩
  · rw [show sp - 12 + 4 = sp - 8 by omega, word32_congr fun i _ => h₃ _ (by omega)]
    exact word32_poke hlen
  · rw [show sp - 12 + 8 = sp - 4 by omega, word32_congr fun i _ => h₂ _ (by omega),
      word32_poke hsp]
    omega
  · obtain ⟨hstring, habove⟩ := hpointers i hi
    rw [show sp - 12 + 12 = sp by omega, hword _ (by omega)]
    exact hstring.congr fun j _ => h₁ _ (by omega)
  · rw [show sp - 12 + 12 = sp by omega, hword _ (by omega)]
    exact hnull

/-- The null word is zero already. -/
theorem onStack_null {a : Nat} (ha : InStack a) (hzero : m a = 0) :
    OnStack (fun _ m' => m' = m) (store_bytes [0] a) m := by
  refine onStack_store_bytes (fun i hi => ?_) ?_
  · obtain rfl : i = 0 := by
      rw [length_singleton] at hi
      omega
    exact ha
  · rw [poke, poke, ← hzero, update_eq_self]

/-- What the strings leave behind: they are packed at the top, and below them the page is zero. -/
structure StringsDone (m : Nat → UInt8) (args : List (List UInt8)) : Prop where
  strings : Ascending m (PHYS_BASE - packed args) args.reverse
  zero : ZeroBelow m (PHYS_BASE - packed args)

theorem onStack_strings (hne : token ≠ [])
    (hnz : ∀ s ∈ token :: tokens save_ptr [32], ∀ c ∈ s, c ≠ 0)
    (hfits : packed (token :: tokens save_ptr [32]) ≤ PGSIZE) (hzero : ZeroBelow m PHYS_BASE) :
    OnStack (fun r m' => r = (PHYS_BASE - packed (token :: tokens save_ptr [32]),
        (token :: tokens save_ptr [32]).reverse.length) ∧
      StringsDone m' (token :: tokens save_ptr [32]))
      (push_args (save_ptr.length + 1) token save_ptr PHYS_BASE 0) m := by
  have hbase : PGSIZE ≤ PHYS_BASE := by decide
  refine onStack_push_args (Nat.lt_succ_self _) hne hnz (by omega) le_rfl hzero ?_
  intro m' hpacked hframe
  refine ⟨?_, hpacked.ascending (by omega), fun a h₁ h₂ => ?_⟩
  · rw [length_reverse, Nat.zero_add]
  · rw [hframe a (.inl h₂)]
    exact hzero a h₁ (by omega)

/-- What the addresses leave behind, from `sp` on. -/
structure AddressesDone (m : Nat → UInt8) (sp : Nat) (args : List (List UInt8)) : Prop where
  pointers : ∀ i < args.length, StringAt m (word32 m (sp + 4 * i)) (args.getD i []) ∧
    PHYS_BASE - packed args ≤ word32 m (sp + 4 * i)
  null : word32 m (sp + 4 * args.length) = 0

theorem StringsDone.onStack_addresses (h : StringsDone m args)
    (hfits : packed args + 4 + 4 * args.length ≤ PGSIZE) :
    OnStack (fun sp m' => sp = PHYS_BASE - packed args - 4 - 4 * args.length ∧
        AddressesDone m' sp args)
      (push_addresses args.reverse.length (PHYS_BASE - packed args - 4) (PHYS_BASE - packed args))
      m := by
  have hbase : PGSIZE ≤ PHYS_BASE := by decide
  have hlen : args.reverse.length = args.length := length_reverse
  refine onStack_push_addresses (by omega) (by omega) (by rw [packed_reverse]; omega) h.strings ?_
  intro m' hpointers habove hframe
  rw [hlen] at hframe habove ⊢
  refine ⟨rfl, fun i hi => ⟨hpointers.argv (by omega) i hi, ?_⟩, ?_⟩
  · have := habove (args.length - 1 - i) (by omega)
    rwa [show PHYS_BASE - packed args - 4 - 4 * (args.length - 1 - i + 1) =
      PHYS_BASE - packed args - 4 - 4 * args.length + 4 * i by omega] at this
  · refine word32_zero fun i hi => ?_
    rw [hframe _ (by omega)]
    exact h.zero _ (by omega) (by omega)

/-- On a zero page with room for the image, the arguments are built. -/
theorem onStack_setup_arguments (hne : token ≠ [])
    (hnz : ∀ s ∈ token :: tokens save_ptr [32], ∀ c ∈ s, c ≠ 0)
    (hfits : stack_image (token :: tokens save_ptr [32]) ≤ PGSIZE) (hzero : ZeroBelow m PHYS_BASE) :
    OnStack (fun esp m' => esp = PHYS_BASE - stack_image (token :: tokens save_ptr [32]) ∧
      ArgumentStack m' esp (token :: tokens save_ptr [32])) (setup_arguments token save_ptr) m := by
  have hbase : PGSIZE ≤ PHYS_BASE := by decide
  have htop : PHYS_BASE < 2 ^ 32 := by decide
  have hpage : PGSIZE < 2 ^ 32 := by decide
  rw [stack_image] at hfits ⊢
  rw [setup_arguments]
  refine Prog.Meets.bind (onStack_strings hne hnz (by omega) hzero) ?_
  rintro _ m₁ ⟨rfl, hstrings⟩
  generalize token :: tokens save_ptr [32] = args at hfits hstrings ⊢
  refine Prog.Meets.bind (onStack_null ⟨by omega, by omega⟩
    (hstrings.zero _ (by omega) (by omega))) ?_
  rintro _ _ rfl
  refine Prog.Meets.bind (hstrings.onStack_addresses (by omega)) ?_
  rintro _ m₃ ⟨rfl, haddresses⟩
  refine Prog.Meets.bind (onStack_store_word (by omega) (by omega)) ?_
  rintro _ _ rfl
  refine Prog.Meets.bind (onStack_store_word (by omega) (by omega)) ?_
  rintro _ _ rfl
  refine Prog.Meets.bind (onStack_store_word (by omega) (by omega)) ?_
  rintro _ _ rfl
  refine ⟨by omega, ?_⟩
  rw [length_reverse]
  exact argumentStack_of_words (by omega) (by omega) (by omega) (PHYS_BASE - packed args)
    (by omega) haddresses.pointers haddresses.null

end Stack

end Pintos
