import Mathlib.Tactic

/-!
# Support — Machine

State machines that may panic and that leave a trace.  A machine takes a state to the events it
emits and an outcome: a value with the state it leaves, or a panic with the state it strikes in.
The trace is not part of the state, so no machine reads it.

`m.Runs ok s Q` is total correctness modulo a class of events: if every event `m` emits from `s`
is `ok`, then `m` does not panic and its events, value and final state meet `Q`.  At `ok = ⊤` it
is plain total correctness; a smaller `ok` leaves out the runs that take a branch whose event is
not `ok`.  `m.Emits P` says that the events of the runs that return are in `P`.
`m.Ends s Q` is partial correctness: what a run from `s` returns meets `Q`; `m.Yields ok s Q` asks
for it only if the events are `ok`.  `m.Returns s Q` is about the one run from `s`, whatever it
emits.
-/

namespace Support

/-- The end of a run. -/
inductive Outcome (σ α : Type) where
  | done (a : α) (s : σ)
  | panic (s : σ)

/-- The state a run ends in. -/
def Outcome.state {σ α : Type} : Outcome σ α → σ
  | .done _ s | .panic s => s

/-- A machine over states `σ` with events `ε`. -/
def Machine (ε σ α : Type) : Type := σ → List ε × Outcome σ α

/-- What a run returns: its events, its value and the state it leaves. -/
def returned {ε σ α : Type} : List ε × Outcome σ α → Option (List ε × α × σ)
  | (es, .done a s) => some (es, a, s)
  | (_, .panic _) => none

theorem returned_eq_some {ε σ α : Type} {r : List ε × Outcome σ α} {es : List ε} {a : α} {s : σ}
    (h : returned r = some (es, a, s)) : r = (es, .done a s) := by
  obtain ⟨es', o⟩ := r
  cases o with
  | done a' s' =>
    obtain ⟨rfl, rfl, rfl⟩ : es' = es ∧ a' = a ∧ s' = s := by simpa [returned] using h
    rfl
  | panic s' => cases h

theorem eq_of_outcome {ε σ α : Type} {r : List ε × Outcome σ α} {o : Outcome σ α}
    (h : r.2 = o) : r = (r.1, o) := Prod.ext rfl h

namespace Machine

variable {ε σ τ α β : Type} {k : α → Machine ε σ β} {m : Machine ε σ α} {es : List ε} {s s' : σ}
  {f : σ → σ} {put : τ → σ → σ} {look : σ → τ} {a : α} {e : ε}

/-- `m`, then `k` at its value; a panic of `m` is final. -/
def bind (m : Machine ε σ α) (k : α → Machine ε σ β) : Machine ε σ β := fun s =>
  match m s with
  | (es, .done a s') => (es ++ (k a s').1, (k a s').2)
  | (es, .panic s') => (es, .panic s')

instance : Monad (Machine ε σ) where
  pure a := fun s => ([], .done a s)
  bind := bind

/-- The state. -/
def get : Machine ε σ σ := fun s => ([], .done s s)

/-- Update the state. -/
def modify (f : σ → σ) : Machine ε σ Unit := fun s => ([], .done () (f s))

/-- Emit an event. -/
def emit (e : ε) : Machine ε σ Unit := fun s => ([e], .done () s)

/-- Stop. -/
def panic : Machine ε σ α := fun s => ([], .panic s)

/-- Run `m` on a component of the state. -/
def zoom (look : σ → τ) (put : τ → σ → σ) (m : Machine ε τ α) : Machine ε σ α := fun s =>
  match m (look s) with
  | (es, .done a t) => (es, .done a (put t s))
  | (es, .panic t) => (es, .panic (put t s))

/-- If every event of the run from `s` is `ok`, the run returns and meets `Q`. -/
def Runs (ok : ε → Prop) (m : Machine ε σ α) (s : σ) (Q : List ε → α → σ → Prop) : Prop :=
  (∀ e ∈ (m s).1, ok e) → ∃ a s', (m s).2 = .done a s' ∧ Q (m s).1 a s'

/-! ### Running a composite -/

@[simp] theorem pure_run (a : α) (s : σ) : (pure a : Machine ε σ α) s = ([], .done a s) := rfl

@[simp] theorem get_run (s : σ) : (get : Machine ε σ σ) s = ([], .done s s) := rfl

@[simp] theorem modify_run (f : σ → σ) (s : σ) :
    (modify f : Machine ε σ Unit) s = ([], .done () (f s)) := rfl

@[simp] theorem emit_run (e : ε) (s : σ) : (emit e : Machine ε σ Unit) s = ([e], .done () s) := rfl

@[simp] theorem panic_run (s : σ) : (panic : Machine ε σ α) s = ([], .panic s) := rfl

theorem bind_run (m : Machine ε σ α) (k : α → Machine ε σ β) (s : σ) : (m >>= k) s = match m s with
      | (es, .done a s') => (es ++ (k a s').1, (k a s').2)
      | (es, .panic s') => (es, .panic s') := rfl

theorem bind_run_done (h : m s = (es, .done a s')) :
    (m >>= k) s = (es ++ (k a s').1, (k a s').2) := by
  show bind m k s = _
  simp only [bind, h]

/-- The first part returns without an event. -/
theorem bind_run_silent {r : List ε × Outcome σ β} (h : m s = ([], .done a s')) (hk : k a s' = r) :
    (m >>= k) s = r := by
  rw [bind_run_done h, hk]
  rfl

theorem bind_run_panic (h : m s = (es, .panic s')) : (m >>= k) s = (es, .panic s') := by
  show bind m k s = _
  simp only [bind, h]

/-- A composite that returns ran both of its parts. -/
theorem bind_done {s s'' : σ} {b : β} (h : (m >>= k) s = (es, .done b s'')) :
    ∃ es₁ a s' es₂, m s = (es₁, .done a s') ∧ k a s' = (es₂, .done b s'') ∧ es = es₁ ++ es₂ := by
  obtain ⟨es₁, o, hm⟩ : ∃ es₁ o, m s = (es₁, o) := ⟨_, _, rfl⟩
  cases o with
  | panic s' => rw [bind_run_panic hm] at h; cases h
  | done a s' =>
    rw [bind_run_done hm] at h
    obtain ⟨h₁, h₂⟩ := Prod.mk.inj h
    exact ⟨es₁, a, s', _, hm, Prod.ext rfl h₂, h₁.symm⟩

theorem mem_bind_left {s : σ} (h : e ∈ (m s).1) : e ∈ ((m >>= k) s).1 := by
  obtain ⟨es, o, hm⟩ : ∃ es o, m s = (es, o) := ⟨_, _, rfl⟩
  rw [hm] at h
  cases o with
  | done a s' =>
    rw [bind_run_done hm]
    exact List.mem_append_left _ h
  | panic s' =>
    rw [bind_run_panic hm]
    exact h

/-- The monad laws; no instance, so that `simp` leaves composites as they are. -/
theorem lawful : LawfulMonad (Machine ε σ) := by
  refine LawfulMonad.mk' _ (fun m => ?_) (fun _ _ => rfl) fun m f g => ?_
  · funext s
    show (m >>= fun a => pure a) s = m s
    obtain ⟨es, o, hm⟩ : ∃ es o, m s = (es, o) := ⟨_, _, rfl⟩
    cases o with
    | done a s' => rw [bind_run_done hm, hm, pure_run, List.append_nil]
    | panic s' => rw [bind_run_panic hm, hm]
  · funext s
    obtain ⟨es, o, hm⟩ : ∃ es o, m s = (es, o) := ⟨_, _, rfl⟩
    cases o with
    | panic s' => rw [bind_run_panic hm, bind_run_panic (bind_run_panic hm)]
    | done a s' =>
      obtain ⟨es', o', hf⟩ : ∃ es' o', f a s' = (es', o') := ⟨_, _, rfl⟩
      have hmf : (m >>= f) s = (es ++ es', o') := by rw [bind_run_done hm, hf]
      rw [bind_run_done hm]
      cases o' with
      | panic s'' => rw [bind_run_panic hmf, bind_run_panic hf]
      | done b s'' => rw [bind_run_done hmf, bind_run_done hf, List.append_assoc]

section Zoom

variable {look : σ → τ} {put : τ → σ → σ}

theorem zoom_pure (hid : ∀ s, put (look s) s = s) (a : α) :
    (pure a : Machine ε τ α).zoom look put = pure a := by
  funext s
  show ([], Outcome.done a (put (look s) s)) = _
  rw [hid]
  rfl

theorem zoom_bind (hget : ∀ t s, look (put t s) = t) (hput : ∀ t t' s, put t' (put t s) = put t' s)
    (m : Machine ε τ α) (k : α → Machine ε τ β) :
    (m >>= k).zoom look put = m.zoom look put >>= fun a => (k a).zoom look put := by
  funext s
  obtain ⟨es, o, hm⟩ : ∃ es o, m (look s) = (es, o) := ⟨_, _, rfl⟩
  cases o with
  | panic t =>
    have hz : m.zoom look put s = (es, .panic (put t s)) := by simp only [zoom, hm]
    rw [bind_run_panic hz]
    simp only [zoom, bind_run_panic hm]
  | done a t =>
    have hz : m.zoom look put s = (es, .done a (put t s)) := by simp only [zoom, hm]
    rw [bind_run_done hz]
    obtain ⟨es', o', hk⟩ : ∃ es' o', k a t = (es', o') := ⟨_, _, rfl⟩
    simp only [zoom, bind_run_done hm, hget, hk]
    cases o' <;> simp only [hput]

end Zoom

/-! ### Rules for `Runs` -/

section Rules

variable {ok : ε → Prop} {s : σ} {Q : List ε → α → σ → Prop} {P : List ε → β → σ → Prop}
  {m : Machine ε σ α} {k : Unit → Machine ε σ β} {a : α} {s' : σ}

theorem Runs.pure (h : Q [] a s) :
    (Pure.pure a : Machine ε σ α).Runs ok s Q := fun _ => ⟨a, s, rfl, h⟩

theorem Runs.modify {Q : List ε → Unit → σ → Prop} (h : Q [] () (f s)) :
    (modify f : Machine ε σ Unit).Runs ok s Q := fun _ => ⟨(), f s, rfl, h⟩

/-- The branch of an event that is not `ok` is left out. -/
theorem Runs.emit {Q : List ε → Unit → σ → Prop} (h : ok e → Q [e] () s) :
    (emit e : Machine ε σ Unit).Runs ok s Q :=
  fun he => ⟨(), s, rfl, h (he e (List.mem_singleton.mpr rfl))⟩

theorem Runs.mono {Q P : List ε → α → σ → Prop} (h : m.Runs ok s Q)
    (hQP : ∀ es a s', (∀ e ∈ es, ok e) → Q es a s' → P es a s') : m.Runs ok s P := by
  intro he
  obtain ⟨a, s', hd, hQ⟩ := h he
  exact ⟨a, s', hd, hQP _ a s' he hQ⟩

/-- Sequencing: the events of the parts are all `ok`, and are appended. -/
theorem Runs.bind {k : α → Machine ε σ β} (h : m.Runs ok s Q)
    (hk : ∀ es a s', (∀ e ∈ es, ok e) → Q es a s' →
      (k a).Runs ok s' fun es' b s'' => P (es ++ es') b s'') :
    (m >>= k).Runs ok s P := by
  intro he
  obtain ⟨es, o, hm⟩ : ∃ es o, m s = (es, o) := ⟨_, _, rfl⟩
  cases o with
  | panic s' =>
    rw [bind_run_panic hm] at he
    obtain ⟨a, s'', hd, -⟩ := h (by rw [hm]; exact he)
    rw [hm] at hd; cases hd
  | done a s' =>
    rw [bind_run_done hm] at he ⊢
    have he₁ : ∀ e ∈ es, ok e := fun e h' => he e (List.mem_append_left _ h')
    obtain ⟨a', s'', hd, hQ⟩ := h (by rw [hm]; exact he₁)
    rw [hm] at hd hQ
    cases hd
    exact hk es a s' he₁ hQ fun e h' => he e (List.mem_append_right _ h')

theorem Runs.get_bind {k : σ → Machine ε σ β} (h : (k s).Runs ok s P) :
    (Machine.get >>= k).Runs ok s P := h

theorem Runs.modify_bind (h : (k ()).Runs ok (f s) P) :
    (Machine.modify f >>= k).Runs ok s P := h

theorem Runs.emit_bind (h : ok e → (k ()).Runs ok s fun es b s' => P (e :: es) b s') :
    (Machine.emit e >>= k).Runs ok s P := by
  refine Runs.bind (Q := fun es _ s' => ok e ∧ es = [e] ∧ s' = s)
    (Runs.emit fun he => ⟨he, rfl, rfl⟩) ?_
  rintro _ _ _ - ⟨he, rfl, rfl⟩
  exact h he

/-- A first part that returns without an event. -/
theorem Runs.silent_bind {k : α → Machine ε σ β} (hm : m s = ([], .done a s'))
    (h : (k a).Runs ok s' P) : (m >>= k).Runs ok s P := by
  unfold Runs
  rw [bind_run_done hm]
  exact h

theorem Runs.zoom {m : Machine ε τ α} (h : m.Runs ok (look s) fun es a t => Q es a (put t s)) :
    (m.zoom look put).Runs ok s Q := by
  intro he
  obtain ⟨es, o, hm⟩ : ∃ es o, m (look s) = (es, o) := ⟨_, _, rfl⟩
  cases o with
  | panic t =>
    have hz : m.zoom look put s = (es, .panic (put t s)) := by simp only [Machine.zoom, hm]
    rw [hz] at he
    obtain ⟨a, t', hd, -⟩ := h (by rw [hm]; exact he)
    rw [hm] at hd; cases hd
  | done a t =>
    have hz : m.zoom look put s = (es, .done a (put t s)) := by simp only [Machine.zoom, hm]
    rw [hz] at he ⊢
    obtain ⟨a', t', hd, hQ⟩ := h (by rw [hm]; exact he)
    rw [hm] at hd hQ
    cases hd
    exact ⟨a, put t s, rfl, hQ⟩

/-- Machines that run alike from `s`. -/
theorem Runs.of_eq {m m' : Machine ε σ α} (hm : m s = m' s) (h : m'.Runs ok s Q) :
    m.Runs ok s Q := by
  unfold Runs
  rw [hm]
  exact h

/-- A run that is known. -/
theorem Runs.of_run {es : List ε} (hm : m s = (es, .done a s')) (hQ : Q es a s') :
    m.Runs ok s Q := by
  unfold Runs
  rw [hm]
  exact fun _ => ⟨a, s', rfl, hQ⟩

/-- What a run that returned with `ok` events says of its result. -/
theorem Runs.of_done (h : m.Runs ok s Q) {es : List ε} (hm : m s = (es, .done a s'))
    (he : ∀ e ∈ es, ok e) :
    Q es a s' := by
  obtain ⟨a', s'', hd, hQ⟩ := h (by rw [hm]; exact he)
  rw [hm] at hd hQ
  cases hd
  exact hQ

end Rules

/-! ### The events of runs that return -/

/-- Every event of a run that returns is in `P`. -/
def Emits (P : ε → Prop) (m : Machine ε σ α) : Prop :=
  ∀ ⦃s es a s'⦄, m s = (es, .done a s') → ∀ e ∈ es, P e

section Emits

variable {P : ε → Prop}

theorem Emits.pure (a : α) : Emits P (Pure.pure a : Machine ε σ α) := by
  intro s es b s' h
  cases h
  exact fun _ he => absurd he List.not_mem_nil

theorem Emits.panic : Emits P (Machine.panic : Machine ε σ α) := by
  intro s es b s' h
  cases h

theorem Emits.modify (f : σ → σ) : Emits P (Machine.modify f : Machine ε σ Unit) := by
  intro s es b s' h
  cases h
  exact fun _ he => absurd he List.not_mem_nil

theorem Emits.emit (h : P e) : Emits P (Machine.emit e : Machine ε σ Unit) := by
  intro s es b s' hr
  cases hr
  intro e' he
  rw [List.mem_singleton.mp he]
  exact h

theorem Emits.bind {m : Machine ε σ α} {k : α → Machine ε σ β} (h : Emits P m)
    (hk : ∀ a, Emits P (k a)) : Emits P (m >>= k) := by
  intro s es b s'' hr
  obtain ⟨es₁, a, s', es₂, h₁, h₂, rfl⟩ := bind_done hr
  exact fun e he => (List.mem_append.mp he).elim (h h₁ e) (hk a h₂ e)

theorem Emits.get_bind {k : σ → Machine ε σ β} (hk : ∀ s, Emits P (k s)) :
    Emits P (Machine.get >>= k) := fun s _ _ _ hr => hk s hr

theorem Emits.modify_bind {k : Unit → Machine ε σ β} (hk : Emits P (k ())) :
    Emits P (Machine.modify f >>= k) := Emits.bind (Emits.modify f) fun _ => hk

theorem Emits.ite {c : Prop} [Decidable c] {m m' : Machine ε σ α} (h : Emits P m)
    (h' : Emits P m') : Emits P (if c then m else m') := by
  split
  · exact h
  · exact h'

theorem Emits.forM {l : List β} {f : β → Machine ε σ PUnit} (h : ∀ b, Emits P (f b)) :
    Emits P (l.forM f) := by
  induction l with
  | nil => exact Emits.pure _
  | cons b l ih => exact Emits.bind (h b) fun _ => ih

theorem Emits.zoom {m : Machine ε τ α} (h : Emits P m) :
    Emits P (m.zoom look put) := by
  intro s es a s' hr
  obtain ⟨es₁, o, hm⟩ : ∃ es₁ o, m (look s) = (es₁, o) := ⟨_, _, rfl⟩
  cases o with
  | panic t =>
    rw [show m.zoom look put s = (es₁, .panic (put t s)) by simp only [Machine.zoom, hm]] at hr
    cases hr
  | done b t =>
    rw [show m.zoom look put s = (es₁, .done b (put t s)) by simp only [Machine.zoom, hm]] at hr
    cases hr
    exact h hm

end Emits

/-! ### Partial correctness -/

/-- Whatever the run from `s` returns, and the state it leaves, meet `Q`. -/
def Ends (m : Machine ε σ α) (s : σ) (Q : α → σ → Prop) : Prop :=
  ∀ ⦃es a s'⦄, m s = (es, .done a s') → Q a s'

section Ends

variable {s : σ} {Q : α → σ → Prop} {m : Machine ε σ α} {P : β → σ → Prop} {ok : ε → Prop}
  {k : α → Machine ε σ β}

theorem Ends.pure (h : Q a s) : (Pure.pure a : Machine ε σ α).Ends s Q := by
  intro es b s' hr
  cases hr
  exact h

theorem Ends.panic : (Machine.panic : Machine ε σ α).Ends s Q := by
  intro es b s' hr
  cases hr

theorem Ends.modify {Q : Unit → σ → Prop} (h : Q () (f s)) :
    (Machine.modify f : Machine ε σ Unit).Ends s Q := by
  intro es b s' hr
  cases hr
  exact h

theorem Ends.emit {Q : Unit → σ → Prop} (h : Q () s) :
    (Machine.emit e : Machine ε σ Unit).Ends s Q := by
  intro es b s' hr
  cases hr
  exact h

theorem Ends.mono {Q P : α → σ → Prop} (h : m.Ends s Q) (hQP : ∀ a s', Q a s' → P a s') :
    m.Ends s P := fun _ a s' hr => hQP a s' (h hr)

theorem Ends.bind (h : m.Ends s Q) (hk : ∀ a s', Q a s' → (k a).Ends s' P) :
    (m >>= k).Ends s P := by
  intro es b s'' hr
  obtain ⟨es₁, a, s', es₂, h₁, h₂, -⟩ := bind_done hr
  exact hk a s' (h h₁) h₂

theorem Ends.get_bind {k : σ → Machine ε σ β} (h : (k s).Ends s P) :
    (Machine.get >>= k).Ends s P := fun _ _ _ hr => h hr

theorem Ends.modify_bind {k : Unit → Machine ε σ β} (h : (k ()).Ends (f s) P) :
    (Machine.modify f >>= k).Ends s P :=
  Ends.bind (Q := fun _ s' => s' = f s) (Ends.modify rfl) fun _ _ hs => hs ▸ h

theorem Ends.ite {c : Prop} [Decidable c] {m m' : Machine ε σ α} (h : c → m.Ends s Q)
    (h' : ¬ c → m'.Ends s Q) : (if c then m else m').Ends s Q := by
  split
  · exact h ‹_›
  · exact h' ‹_›

theorem Ends.zoom {m : Machine ε τ α} (h : m.Ends (look s) fun a t => Q a (put t s)) :
    (m.zoom look put).Ends s Q := by
  intro es a s' hr
  obtain ⟨es₁, o, hm⟩ : ∃ es₁ o, m (look s) = (es₁, o) := ⟨_, _, rfl⟩
  cases o with
  | panic t =>
    rw [show m.zoom look put s = (es₁, .panic (put t s)) by simp only [Machine.zoom, hm]] at hr
    cases hr
  | done b t =>
    rw [show m.zoom look put s = (es₁, .done b (put t s)) by simp only [Machine.zoom, hm]] at hr
    cases hr
    exact h hm

/-- Whatever the run from `s` returns if its events are `ok`, and the state it leaves, meet `Q`. -/
def Yields (ok : ε → Prop) (m : Machine ε σ α) (s : σ) (Q : α → σ → Prop) : Prop :=
  ∀ ⦃es a s'⦄, m s = (es, .done a s') → (∀ e ∈ es, ok e) → Q a s'

theorem Ends.yields (h : m.Ends s Q) : m.Yields ok s Q := fun _ _ _ hr _ => h hr

theorem Runs.yields (h : m.Runs ok s fun _ => Q) :
    m.Yields ok s Q := fun _ _ _ hr he => h.of_done hr he

theorem Yields.bind (h : m.Yields ok s Q) (hk : ∀ a s', Q a s' → (k a).Yields ok s' P) :
    (m >>= k).Yields ok s P := by
  intro es b s'' hr he
  obtain ⟨es₁, a, s', es₂, h₁, h₂, rfl⟩ := bind_done hr
  refine hk a s' (h h₁ fun e hm => he e (List.mem_append_left _ hm)) h₂ ?_
  exact fun e hm => he e (List.mem_append_right _ hm)

end Ends

/-! ### Whether a run returns -/

/-- The run from `s` returns, and meets `Q`. -/
def Returns (m : Machine ε σ α) (s : σ) (Q : α → σ → Prop) : Prop :=
  ∃ es a s', m s = (es, .done a s') ∧ Q a s'

section Returns

variable {s : σ} {Q : α → σ → Prop} {m : Machine ε σ α} {P : β → σ → Prop}

theorem Returns.pure (h : Q a s) :
    (Pure.pure a : Machine ε σ α).Returns s Q := ⟨[], a, s, rfl, h⟩

theorem Returns.modify {Q : Unit → σ → Prop} (h : Q () (f s)) :
    (Machine.modify f : Machine ε σ Unit).Returns s Q := ⟨[], (), f s, rfl, h⟩

theorem Returns.mono {Q P : α → σ → Prop} (h : m.Returns s Q) (hQP : ∀ a s', Q a s' → P a s') :
    m.Returns s P := by
  obtain ⟨es, a, s', hr, hQ⟩ := h
  exact ⟨es, a, s', hr, hQP a s' hQ⟩

theorem Returns.of_done {es : List ε} {s' : σ} (h : m.Returns s Q) (hr : m s = (es, .done a s')) :
    Q a s' := by
  obtain ⟨es₁, a₁, s₁, hr₁, hQ⟩ := h
  cases hr.symm.trans hr₁
  exact hQ

theorem Returns.bind {k : α → Machine ε σ β} (h : m.Returns s Q)
    (hk : ∀ a s', Q a s' → (k a).Returns s' P) :
    (m >>= k).Returns s P := by
  obtain ⟨es, a, s', hr, hQ⟩ := h
  obtain ⟨es', b, s'', hr', hP⟩ := hk a s' hQ
  exact ⟨es ++ es', b, s'', by rw [bind_run_done hr, hr'], hP⟩

theorem Returns.get_bind {k : σ → Machine ε σ β} (h : (k s).Returns s P) :
    (Machine.get >>= k).Returns s P := h

end Returns

end Machine

end Support
