import Pintos.Support.Machine

/-!
# Support — Programs over an interface

A program calls operations of an interface and goes on with their answers; it has no other access
to the state.  A machine for each operation runs it (`Prog.run`), so that one program text runs on
two levels of a design.

`p.Meets pre post Q t` is a contract for the calls a program makes, over an abstract state; what the
operations of a machine keep of it, the runs of the program keep (`Meets.ends`, `Meets.runs`).
-/

namespace Support

/-- A program over the operations `Op`, where operation `o` answers with a `Res o`. -/
inductive Prog (Op : Type) (Res : Op → Type) (α : Type) where
  | done (a : α)
  | call (o : Op) (next : Res o → Prog Op Res α)

namespace Prog

variable {Op : Type} {Res : Op → Type} {α β ε σ τ : Type} {ok : ε → Prop} {P : β → Prop}
  {Q : α → Prop} {o : Op} {a : α}

/-- `p`, then `f` at its value. -/
def bind : Prog Op Res α → (α → Prog Op Res β) → Prog Op Res β
  | done a, f => f a
  | call o next, f => call o fun r => (next r).bind f

instance : Monad (Prog Op Res) where
  pure := done
  bind := bind

/-- The program that calls `o` and returns its answer. -/
def op (o : Op) : Prog Op Res (Res o) := call o done

/-- The program with a machine for each operation. -/
def run (I : ∀ o, Machine ε σ (Res o)) : Prog Op Res α → Machine ε σ α
  | done a => pure a
  | call o next => I o >>= fun r => (next r).run I

variable {I : ∀ o, Machine ε σ (Res o)} {x : List ε × Outcome σ α}

theorem run_op (o : Op) : (op o : Prog Op Res (Res o)).run I = I o :=
  have := Machine.lawful (ε := ε) (σ := σ)
  bind_pure (I o)

theorem run_bind (p : Prog Op Res α) (f : α → Prog Op Res β) :
    (p >>= f).run I = p.run I >>= fun a => (f a).run I := by
  have := Machine.lawful (ε := ε) (σ := σ)
  induction p with
  | done a => rfl
  | call o next ih =>
    show (I o >>= fun r => ((next r).bind f).run I) = (I o >>= fun r => (next r).run I) >>= _
    rw [bind_assoc]
    exact congrArg (I o >>= ·) (funext fun r => ih r)

theorem assoc {γ : Type} (p : Prog Op Res α) (f : α → Prog Op Res β) (g : β → Prog Op Res γ) :
    (p >>= f) >>= g = p >>= fun a => f a >>= g := by
  induction p with
  | done a => rfl
  | call o next ih => exact congrArg (call o) (funext ih)

/-- A first operation that answers without an event. -/
theorem run_silent {f : Res o → Prog Op Res α} {s s' : σ} {r : Res o} (h : I o s = ([], .done r s'))
    (hf : (f r).run I s' = x) :
    (op o >>= f).run I s = x := Machine.bind_run_silent h hf

/-- A first part that returns without an event. -/
theorem run_bind_silent {p : Prog Op Res β} {f : β → Prog Op Res α} {s s' : σ} {b : β}
    (h : p.run I s = ([], .done b s')) (hf : (f b).run I s' = x) :
    (p >>= f).run I s = x := by
  rw [run_bind]
  exact Machine.bind_run_silent h hf

/-! ### Partial correctness -/

section Ends

variable {s : σ} {Q : α → σ → Prop} {f : α → Prog Op Res β} {P : β → σ → Prop} {p : Prog Op Res α}

theorem ends_pure (h : Q a s) :
    ((pure a : Prog Op Res α).run I).Ends s Q := Machine.Ends.pure h

theorem ends_op {Q : Res o → σ → Prop} (h : (I o).Ends s Q) :
    ((op o : Prog Op Res (Res o)).run I).Ends s Q := by
  rw [run_op]
  exact h

theorem ends_bind (h : (p.run I).Ends s Q) (hf : ∀ a s', Q a s' → ((f a).run I).Ends s' P) :
    ((p >>= f).run I).Ends s P := by
  rw [run_bind]
  exact Machine.Ends.bind h hf

theorem yields_bind (h : (p.run I).Yields ok s Q)
    (hf : ∀ a s', Q a s' → ((f a).run I).Yields ok s' P) : ((p >>= f).run I).Yields ok s P := by
  rw [run_bind]
  exact Machine.Yields.bind h hf

end Ends

/-! ### Contracts -/

/-- From the abstract state `t`, the program makes calls that `pre` allows only, as long as every
answer, and the state after it, is one that `post` allows; its value and its last state are in
`Q`. -/
def Meets (pre : τ → Op → Prop) (post : τ → ∀ o, Res o → τ → Prop) (Q : α → τ → Prop) :
    Prog Op Res α → τ → Prop
  | done a, t => Q a t
  | call o next, t => pre t o ∧ ∀ r t', post t o r t' → (next r).Meets pre post Q t'

section Meets

variable {pre : τ → Op → Prop} {post : τ → ∀ o, Res o → τ → Prop} {Q : α → τ → Prop} {t : τ}
  {p : Prog Op Res α} {P : β → τ → Prop} {R : τ → σ → Prop} {f : α → Prog Op Res β}

theorem meets_bind :
    (p >>= f).Meets pre post P t ↔ p.Meets pre post (fun a => (f a).Meets pre post P) t := by
  induction p generalizing t with
  | done a => exact Iff.rfl
  | call o next ih =>
    exact and_congr_right fun _ => forall_congr' fun r => forall_congr' fun t' =>
      imp_congr_right fun _ => ih r

theorem Meets.op_bind {f : Res o → Prog Op Res β} (h : pre t o)
    (hf : ∀ r t', post t o r t' → (f r).Meets pre post P t') :
    (op o >>= f).Meets pre post P t := ⟨h, hf⟩

theorem Meets.mono {P : α → τ → Prop} (h : p.Meets pre post Q t) (hQP : ∀ a t', Q a t' → P a t') :
    p.Meets pre post P t := by
  induction p generalizing t with
  | done a => exact hQP a t h
  | call o next ih => exact ⟨h.1, fun r t' hr => ih r (h.2 r t' hr)⟩

theorem Meets.bind (h : p.Meets pre post Q t) (hf : ∀ a t', Q a t' → (f a).Meets pre post P t') :
    (p >>= f).Meets pre post P t := meets_bind.mpr (h.mono hf)

/-- A machine whose operations keep to the contract, seen through `R`, runs the program to a value
in `Q`, if it returns. -/
theorem Meets.ends (hI : ∀ o t s, pre t o → R t s →
      (I o).Ends s fun r s' => ∃ t', post t o r t' ∧ R t' s') (h : p.Meets pre post Q t) :
    ∀ {s}, R t s → (p.run I).Ends s fun a s' => ∃ t', Q a t' ∧ R t' s' := by
  induction p generalizing t with
  | done a => exact fun hs => Machine.Ends.pure ⟨t, h, hs⟩
  | call o next ih =>
    intro s hs
    refine Machine.Ends.bind (hI o t s h.1 hs) ?_
    rintro r s' ⟨t', hr, hs'⟩
    exact ih r (h.2 r t' hr) hs'

/-- A machine whose operations return and keep to the contract runs the program to a value in
`Q`. -/
theorem Meets.returns (hI : ∀ o t s, pre t o → R t s →
      (I o).Returns s fun r s' => ∃ t', post t o r t' ∧ R t' s') (h : p.Meets pre post Q t) :
    ∀ {s}, R t s → (p.run I).Returns s fun a s' => ∃ t', Q a t' ∧ R t' s' := by
  induction p generalizing t with
  | done a => exact fun hs => Machine.Returns.pure ⟨t, h, hs⟩
  | call o next ih =>
    intro s hs
    refine Machine.Returns.bind (hI o t s h.1 hs) ?_
    rintro r s' ⟨t', hr, hs'⟩
    exact ih r (h.2 r t' hr) hs'

/-- A machine whose operations return and keep to the contract, unless an event of theirs is not
`ok`, runs the program to a value in `Q`, unless an event is not `ok`. -/
theorem Meets.runs (hI : ∀ o t s, pre t o → R t s →
      (I o).Runs ok s fun _ r s' => ∃ t', post t o r t' ∧ R t' s') (h : p.Meets pre post Q t) :
    ∀ {s}, R t s → (p.run I).Runs ok s fun _ a s' => ∃ t', Q a t' ∧ R t' s' := by
  induction p generalizing t with
  | done a => exact fun hs => Machine.Runs.pure ⟨t, h, hs⟩
  | call o next ih =>
    intro s hs
    refine Machine.Runs.bind (hI o t s h.1 hs) ?_
    rintro es r s' - ⟨t', hr, hs'⟩
    exact ih r (h.2 r t' hr) hs'

/-- A panic of the program is a panic of one of the calls. -/
theorem Meets.panics {F : σ → Prop} (hI : ∀ o t s, pre t o → R t s →
      (I o).Ends s fun r s' => ∃ t', post t o r t' ∧ R t' s')
    (hF : ∀ o t s es s', pre t o → R t s → I o s = (es, .panic s') → F s')
    (h : p.Meets pre post Q t) : ∀ {s es s'}, R t s → p.run I s = (es, .panic s') → F s' := by
  induction p generalizing t with
  | done a =>
    intro s es s' _ hr
    cases hr
  | call o next ih =>
    intro s es s' hs hr
    obtain ⟨es₁, x, hx⟩ : ∃ es₁ x, I o s = (es₁, x) := ⟨_, _, rfl⟩
    cases x with
    | panic s₁ =>
      have hrun : (call o next).run I s = (es₁, .panic s₁) := Machine.bind_run_panic hx
      rw [hrun] at hr
      cases hr
      exact hF o t s _ _ h.1 hs hx
    | done r s₁ =>
      obtain ⟨t', hpost, hR⟩ := hI o t s h.1 hs hx
      have hrun : (call o next).run I s =
          (es₁ ++ ((next r).run I s₁).1, ((next r).run I s₁).2) := Machine.bind_run_done hx
      rw [hrun] at hr
      exact ih r (h.2 r t' hpost) hR (Prod.ext rfl (Prod.mk.inj hr).2)

theorem meets_map {f : α → β} :
    (f <$> p).Meets pre post P t ↔ p.Meets pre post (fun a => P (f a)) t := meets_bind

end Meets

/-- The program calls operations in `ok` only, and its value is in `Q`. -/
def Calls (ok : Op → Prop) (p : Prog Op Res α) (Q : α → Prop) : Prop :=
  p.Meets (fun (_ : Unit) o => ok o) (fun _ _ _ _ => True) (fun a _ => Q a) ()

section Calls

variable {ok : Op → Prop} {p : Prog Op Res α} {Q : α → Prop}

/-- Any program makes calls. -/
theorem calls_any (p : Prog Op Res α) : p.Calls (fun _ => True) fun _ => True := by
  induction p with
  | done a => trivial
  | call o next ih => exact ⟨trivial, fun r _ _ => ih r⟩

theorem Calls.pure (h : Q a) : (Pure.pure a : Prog Op Res α).Calls ok Q := h

theorem Calls.op (h : ok o) : (op o : Prog Op Res (Res o)).Calls ok fun _ => True :=
  ⟨h, fun _ _ _ => trivial⟩

theorem Calls.mono {P : α → Prop} (h : p.Calls ok Q) (hQP : ∀ a, Q a → P a) : p.Calls ok P :=
  Meets.mono h fun a _ => hQP a

theorem Calls.bind {f : α → Prog Op Res β} (h : p.Calls ok Q) (hf : ∀ a, Q a → (f a).Calls ok P) :
    (p >>= f).Calls ok P :=
  meets_bind.mpr (Meets.mono h fun a _ => hf a)

theorem Calls.op_bind {f : Res o → Prog Op Res β} (h : ok o) (hf : ∀ r, (f r).Calls ok P) :
    (Prog.op o >>= f).Calls ok P := (Calls.op h).bind fun r _ => hf r

theorem Calls.ite {c : Prop} [Decidable c] {p' : Prog Op Res α} (h : p.Calls ok Q)
    (h' : p'.Calls ok Q) : (if c then p else p').Calls ok Q := by
  split
  · exact h
  · exact h'

/-- What the operations in `ok` keep, the program keeps. -/
theorem Calls.ends {P : σ → Prop} {s : σ} (hI : ∀ o s, ok o → P s → (I o).Ends s fun _ => P)
    (h : p.Calls ok Q) (hs : P s) : (p.run I).Ends s fun a s' => Q a ∧ P s' := by
  have hmeets := Meets.ends (R := fun (_ : Unit) s => P s)
    (fun o _ s ho hs => (hI o s ho hs).mono fun _ _ h => ⟨(), trivial, h⟩) h hs
  exact hmeets.mono fun a s' ⟨_, ha, hs'⟩ => ⟨ha, hs'⟩

end Calls

/-! ### The calls of a run -/

/-- Every operation that the run of the program from `s` calls is in `ok`. -/
def Stays (I : ∀ o, Machine ε σ (Res o)) (ok : Op → Prop) : Prog Op Res α → σ → Prop
  | done _, _ => True
  | call o next, s => ok o ∧ ∀ es r s', I o s = (es, .done r s') → (next r).Stays I ok s'

section Stays

variable {ok : Op → Prop} {s : σ} {p : Prog Op Res α} {f : α → Prog Op Res β} {ok' : Op → Prop}

theorem stays_bind : (p >>= f).Stays I ok s ↔ p.Stays I ok s ∧
      ∀ es a s', p.run I s = (es, .done a s') → (f a).Stays I ok s' := by
  induction p generalizing s with
  | done a =>
    refine ⟨fun h => ⟨trivial, fun es b s' hr => ?_⟩, fun h => h.2 [] a s rfl⟩
    cases hr
    exact h
  | call o next ih =>
    constructor
    · rintro ⟨ho, hnext⟩
      refine ⟨⟨ho, fun es r s' hr => (ih r).mp (hnext es r s' hr) |>.1⟩, fun es a s'' hr => ?_⟩
      obtain ⟨es₁, r, s', es₂, h₁, h₂, -⟩ := Machine.bind_done hr
      exact ((ih r).mp (hnext es₁ r s' h₁)).2 es₂ a s'' h₂
    · rintro ⟨⟨ho, hnext⟩, hf⟩
      refine ⟨ho, fun es r s' hr => (ih r).mpr ⟨hnext es r s' hr, fun es' a s'' hr' => ?_⟩⟩
      exact hf _ a s'' (by
        show (I o >>= fun r => (next r).run I) s = _
        rw [Machine.bind_run_done hr, hr'])

/-- A program that calls operations in `ok` only does so in every run. -/
theorem Calls.stays (h : p.Calls ok Q) : p.Stays I ok s := by
  induction p generalizing s with
  | done a => trivial
  | call o next ih => exact ⟨h.1, fun _ r _ _ => ih r (h.2 r () trivial)⟩

theorem Stays.mono (hok : ∀ o, ok o → ok' o) : ∀ {s}, p.Stays I ok s → p.Stays I ok' s := by
  induction p with
  | done a => exact fun _ => trivial
  | call o next ih => exact fun h => ⟨hok o h.1, fun es r s' hr => ih r (h.2 es r s' hr)⟩

/-- So does one that keeps to a contract, on a machine that keeps to it. -/
theorem Meets.stays {pre : τ → Op → Prop} {post : τ → ∀ o, Res o → τ → Prop} {Q : α → τ → Prop}
    {R : τ → σ → Prop} (hI : ∀ o t s, pre t o → R t s →
      (I o).Ends s fun r s' => ∃ t', post t o r t' ∧ R t' s') (hok : ∀ t o, pre t o → ok o) :
    ∀ {t s}, p.Meets pre post Q t → R t s → p.Stays I ok s := by
  induction p with
  | done a => exact fun _ _ => trivial
  | call o next ih =>
    intro t s h hs
    refine ⟨hok t o h.1, fun es r s' hr => ?_⟩
    obtain ⟨t', hpost, hR⟩ := hI o t s h.1 hs hr
    exact ih r (h.2 r t' hpost) hR

/-- The run returns a value in `N`. -/
def Finishes (I : ∀ o, Machine ε σ (Res o)) (N : α → Prop) (p : Prog Op Res α) (s : σ) : Prop :=
  ∃ es a s', p.run I s = (es, .done a s') ∧ N a

theorem finishes_pure {N : α → Prop} : (pure a : Prog Op Res α).Finishes I N s ↔ N a :=
  ⟨fun ⟨_, _, _, hr, h⟩ => by cases hr; exact h, fun h => ⟨[], a, s, rfl, h⟩⟩

theorem Finishes.of_bind {N : β → Prop} (h : (p >>= f).Finishes I N s) :
    p.Finishes I (fun a => ∃ s', (f a).Finishes I N s') s := by
  obtain ⟨es, b, s', hr, hb⟩ := h
  rw [run_bind] at hr
  obtain ⟨es₁, a, s₁, es₂, h₁, h₂, -⟩ := Machine.bind_done hr
  exact ⟨es₁, a, s₁, h₁, s₁, es₂, b, s', h₂, hb⟩

end Stays

/-! ### Embedding -/

section Embed

variable {Op' : Type} {Res' : Op' → Type} {e : Op → Op'} {back : ∀ o, Res' (e o) → Res o}

/-- The program over an interface that has the operations of this one. -/
def embed (e : Op → Op') (back : ∀ o, Res' (e o) → Res o) : Prog Op Res α → Prog Op' Res' α
  | done a => done a
  | call o next => call (e o) fun r => (next (back o r)).embed e back

theorem embed_bind (p : Prog Op Res α) (f : α → Prog Op Res β) :
    (p >>= f).embed e back = p.embed e back >>= fun a => (f a).embed e back := by
  induction p with
  | done a => rfl
  | call o next ih => exact congrArg (call (e o)) (funext fun r => ih _)

/-- A contract that allows the embedded operations in `ok`. -/
theorem Calls.embed {ok : Op → Prop} {pre : τ → Op' → Prop} {post : τ → ∀ o, Res' o → τ → Prop}
    (hpre : ∀ t o, ok o → pre t (e o)) {p : Prog Op Res α} (h : p.Calls ok Q) (t : τ) :
    (p.embed e back).Meets pre post (fun a _ => Q a) t := by
  induction p generalizing t with
  | done a => exact h
  | call o next ih => exact ⟨hpre t o h.1, fun r t' _ => ih _ (h.2 _ () trivial) t'⟩

/-- An embedded program works on the part of the state that the embedded operations work on. -/
theorem run_embed {J : ∀ o, Machine ε τ (Res' o)} {look : τ → σ} {put : σ → τ → τ}
    (hid : ∀ t, put (look t) t = t) (hget : ∀ s t, look (put s t) = s)
    (hput : ∀ s s' t, put s' (put s t) = put s' t)
    (hJ : ∀ o, (J (e o) >>= fun r => pure (back o r)) = (I o).zoom look put) (p : Prog Op Res α) :
    (p.embed e back).run J = (p.run I).zoom look put := by
  have := Machine.lawful (ε := ε) (σ := τ)
  induction p with
  | done a => exact (Machine.zoom_pure hid a).symm
  | call o next ih =>
    show (J (e o) >>= fun r => ((next (back o r)).embed e back).run J) = _
    rw [show (call o next).run I = I o >>= fun r => (next r).run I from rfl,
      Machine.zoom_bind hget hput, ← hJ, bind_assoc]
    refine congrArg (J (e o) >>= ·) (funext fun r => ?_)
    rw [pure_bind, ih]

end Embed

end Prog

end Support
