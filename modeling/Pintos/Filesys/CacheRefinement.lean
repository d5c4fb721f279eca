import Pintos.Filesys.BufferCache

/-!
# Filesys — the cache refines a flat disk

A flat disk is an array of sectors; a call to the cache acts on it as its name says, and a
write-back does nothing (`CacheCall.flat`).  Started from `cache_init`, every sequence of calls
returns what the flat disk returns, and after a write-back the device is the flat disk
(`cache_refines_flat`).

The relation is `Represents d m`: the table satisfies `CacheOk`, and the logical contents of the
device are `m`.  The bound on evictions keeps the 32-bit round-robin index from wrapping
(`Ticks.nonneg`): a wrapped index is negative and so is its remainder by 64.
-/

namespace Pintos
open Support Function

inductive CacheCall where
  | read (s : Sector) (sector_ofs size : Nat)
  | write (s : Sector) (source : List UInt8) (sector_ofs : Nat)
  | writeback (last_write_back : Bool)

namespace CacheCall

/-- The sector is on the device, and the bytes are within the sector. -/
def Valid (size : Nat) : CacheCall → Prop
  | read s ofs n => s < size ∧ ofs + n ≤ 512
  | write s src ofs => s < size ∧ ofs + src.length ≤ 512
  | writeback _ => True

/-- The call, with the bytes a read returns. -/
def perform : CacheCall → Machine Event Device (List UInt8)
  | read s ofs n => cache_read s ofs n
  | write s src ofs => do cache_write s src ofs; pure []
  | writeback last => do cache_writeback last; pure []

/-- The call on an array of sectors. -/
def flat : CacheCall → (Sector → Block) → List UInt8 × (Sector → Block)
  | read s ofs n, m => ((m s).read ofs n, m)
  | write s src ofs, m => ([], update m s ((m s).write ofs src))
  | writeback _, m => ([], m)

/-- A sequence of calls, with what each returns. -/
def performAll : List CacheCall → Machine Event Device (List (List UInt8))
  | [] => pure []
  | c :: cs => do
    let out ← c.perform
    let outs ← performAll cs
    pure (out :: outs)

def flatAll : List CacheCall → (Sector → Block) → List (List UInt8) × (Sector → Block)
  | [], m => ([], m)
  | c :: cs, m => ((c.flat m).1 :: (flatAll cs (c.flat m).2).1, (flatAll cs (c.flat m).2).2)

end CacheCall

/-- The device at boot: static storage is zero. -/
def Device.boot (size : Nat) (disk : Sector → Block) : Device where
  size := size
  disk := disk
  cache_table _ := ⟨false, 0, false, false, Bytes.zero, 0⟩
  round_robin_idx := 0

/-- The number of evictions in a trace. -/
def evictions (T : List Event) : Nat :=
  T.countP fun e => match e with | .evict _ => true | _ => false

/-! ### The round-robin index -/

/-- The index moves from `r` to `r'` along `es`, by one at each eviction, modulo `2 ^ 32`. -/
inductive Ticks : Int → List Event → Int → Prop where
  | nil (r : Int) : Ticks r [] r
  | evict {r r' : Int} {es : List Event} :
      Ticks (wrap32 (r + 1)) es r' → Ticks r (.evict (wrap32 (r + 1)) :: es) r'
  | other {r r' : Int} {e : Event} {es : List Event} :
      (∀ i, e ≠ .evict i) → Ticks r es r' → Ticks r (e :: es) r'

theorem Ticks.append {r r' r'' : Int} {es es' : List Event} (h : Ticks r es r')
    (h' : Ticks r' es' r'') : Ticks r (es ++ es') r'' := by
  induction h with
  | nil => exact h'
  | evict _ ih => exact .evict (ih h')
  | other he _ ih => exact .other he (ih h')

/-- Short of `2 ^ 31 - 1` evictions the index does not wrap. -/
theorem Ticks.nonneg {r r' : Int} {es : List Event} (h : Ticks r es r') :
    0 ≤ r → r + evictions es < 2 ^ 31 → ∀ i, .evict i ∈ es → 0 ≤ i := by
  induction h with
  | nil => intro _ _ i hi; cases hi
  | @evict r r' es _ ih =>
    intro h₀ hb i hi
    have hcount : (evictions (.evict (wrap32 (r + 1)) :: es) : Int) = evictions es + 1 := by
      simp [evictions]
    rw [hcount] at hb
    have hstep : wrap32 (r + 1) = r + 1 := Int.bmod_eq_of_le (by omega) (by omega)
    rw [hstep] at ih hi
    rcases List.mem_cons.mp hi with hi | hi
    · cases hi; omega
    · exact ih (by omega) (by omega) i hi
  | @other r r' e es he _ ih =>
    intro h₀ hb i hi
    have hcount : evictions (e :: es) = evictions es := by
      cases e <;> first | exact absurd rfl (he _) | simp [evictions]
    rw [hcount] at hb
    rcases List.mem_cons.mp hi with hi | hi
    · exact absurd hi.symm (he i)
    · exact ih h₀ hb i hi

/-- Every run of `m` moves the index along its events. -/
def Counts {α : Type} (m : Machine Event Device α) : Prop :=
  ∀ d, Ticks d.round_robin_idx (m d).1 (m d).2.state.round_robin_idx

section Counts

variable {α β : Type}

theorem Counts.pure (a : α) : Counts (Pure.pure a : Machine Event Device α) := fun _ => .nil _

theorem Counts.panic : Counts (Machine.panic : Machine Event Device α) := fun _ => .nil _

theorem Counts.modify {f : Device → Device}
    (h : ∀ d, (f d).round_robin_idx = d.round_robin_idx) : Counts (Machine.modify f) := fun d => by
  show Ticks _ [] (f d).round_robin_idx
  rw [h]
  exact .nil _

theorem Counts.emit {e : Event} (h : ∀ i, e ≠ .evict i) : Counts (Machine.emit e) :=
  fun _ => .other h (.nil _)

theorem Counts.bind {m : Machine Event Device α} {k : α → Machine Event Device β}
    (h : Counts m) (hk : ∀ a, Counts (k a)) : Counts (m >>= k) := fun d => by
  obtain ⟨es, o, hm⟩ : ∃ es o, m d = (es, o) := ⟨_, _, rfl⟩
  have hd := h d
  rw [hm] at hd
  cases o with
  | panic d' => rw [Machine.bind_run_panic hm]; exact hd
  | done a d' => rw [Machine.bind_run_done hm]; exact hd.append (hk a d')

theorem Counts.get_bind {k : Device → Machine Event Device β} (hk : ∀ d, Counts (k d)) :
    Counts (Machine.get >>= k) := fun d => hk d d

theorem Counts.forM {l : List α} {f : α → Machine Event Device Unit} (h : ∀ a, Counts (f a)) :
    Counts (l.forM f) := by
  induction l with
  | nil => exact .pure ()
  | cons a l ih => exact .bind (h a) fun _ => ih

theorem counts_block_read (s : Sector) : Counts (block_read s) :=
  Counts.get_bind fun d => by split; exacts [Counts.pure _, .panic]

theorem counts_block_write (w : Writer) (s : Sector) (b : Block) : Counts (block_write w s b) :=
  Counts.get_bind fun d => by
    split
    · exact .bind (.emit (by simp)) fun _ => .modify fun _ => rfl
    · exact .panic

theorem counts_cache_flush (b : Bool) (e : CacheEntry) : Counts (cache_flush b e) := by
  unfold cache_flush
  split
  exacts [counts_block_write _ _ _, .pure _]

theorem counts_cache_evict : Counts cache_evict := by
  intro d
  cases hf : (List.finRange CACHE_SIZE).find? (fun i => !(d.cache_table i).occupied) with
  | some i =>
    rw [cache_evict_of_free hf]
    exact .nil _
  | none =>
    set r := wrap32 (d.round_robin_idx + 1) with hrr
    cases hi : slotOf r with
    | none =>
      have hr : cache_evict d = ([.evict r], .panic { d with round_robin_idx := r }) := by
        simp [cache_evict, cache_get_free_entry, Machine.bind_run, hf, ← hrr, hi]
      rw [hr]
      exact .evict (.nil _)
    | some i =>
      let k : Machine Event Device (Fin CACHE_SIZE) := do
        cache_flush (d.cache_table i).dirty (d.cache_table i)
        Machine.modify fun d => d.setSlot i (d.cache_table i).reset
        pure i
      have hk : Counts k := Counts.bind (counts_cache_flush _ _) fun _ =>
        Counts.bind (.modify fun _ => rfl) fun _ => .pure _
      have hr : cache_evict d = (.evict r :: (k { d with round_robin_idx := r }).1,
          (k { d with round_robin_idx := r }).2) := by
        simp [cache_evict, cache_get_free_entry, Machine.bind_run, hf, ← hrr, hi, k]
      rw [hr]
      exact .evict (hk { d with round_robin_idx := r })

theorem counts_cache_bring (s : Sector) (f : Bool → Bool) : Counts (cache_bring s f) :=
  Counts.get_bind fun d => by
    split
    · exact .pure _
    · exact .bind counts_cache_evict fun _ => .bind (.modify fun _ => rfl)
        fun _ => .bind (counts_block_read s) fun _ => .bind (.emit (by simp))
        fun _ => .bind (.modify fun _ => rfl) fun _ => .pure _

theorem CacheCall.counts_perform : ∀ c : CacheCall, Counts c.perform
  | .read s ofs n => .bind (counts_cache_bring s _) fun i => by
    split
    · exact .panic
    · exact .bind (.modify fun _ => rfl) fun _ => .get_bind fun _ =>
        Counts.pure _
  | .write s src ofs => .bind (.bind (counts_cache_bring s _) fun i => by
    split
    · exact .panic
    · exact .bind (.emit (by simp)) fun _ => .modify fun _ => rfl)
    fun _ => .pure _
  | .writeback last => .bind (.forM fun i => .get_bind fun d =>
    Counts.bind (counts_cache_flush _ _) fun _ => .bind (.modify fun _ => rfl)
      fun _ => .modify fun d => by split <;> rfl) fun _ => .pure _

theorem CacheCall.counts_performAll : ∀ cs : List CacheCall, Counts (performAll cs)
  | [] => .pure _
  | c :: cs => .bind c.counts_perform fun _ =>
    Counts.bind (counts_performAll cs) fun _ => .pure _

end Counts

/-! ### The refinement -/

/-- The table is sound and a reader through the cache sees `m`. -/
structure Represents (d : Device) (m : Sector → Block) : Prop where
  ok : CacheOk d
  logical : ∀ s, d.logical s = m s

/-- After a last call that is a write-back, the disk is `m`. -/
def Synced (cs : List CacheCall) (d : Device) (m : Sector → Block) : Prop :=
  ∀ last, cs.getLast? = some (.writeback last) → d.disk = m

theorem represents_cache_init (size : Nat) (disk : Sector → Block) :
    Represents (cache_init (Device.boot size disk)) disk := by
  have hno : ∀ i s, ¬ (cache_init (Device.boot size disk)).Holds i s := by
    rintro i s ⟨h, -⟩
    cases h
  refine ⟨⟨fun h => absurd h (hno _ _), fun h => absurd h (hno _ _), fun _ => rfl, ?_⟩, fun s => ?_⟩
  · rintro s ⟨i, h⟩
    exact absurd h (hno i s)
  · exact Device.logical_of_not_resident fun ⟨i, h⟩ => hno i s h

section Runs

variable {ok : Event → Prop} {d : Device} {m : Sector → Block}

/-- One call: what it returns, and the array it leaves. -/
theorem CacheCall.perform_runs (hev : EvictsInTable ok) (c : CacheCall)
    (hc : c.Valid d.size) (hd : Represents d m) :
    c.perform.Runs ok d fun _ out d' => out = (c.flat m).1 ∧ d'.size = d.size ∧
      Represents d' (c.flat m).2 ∧ ∀ last, c = .writeback last → d'.disk = (c.flat m).2 := by
  cases c with
  | read s ofs n =>
    refine (cache_read_runs hd.ok hc.1 hc.2 hev).mono fun _ out d' _ ⟨hout, ha⟩ => ?_
    refine ⟨by rw [hout, hd.logical]; rfl, ha.size_eq, ⟨ha.ok, fun t => ?_⟩, by simp⟩
    rw [ha.logical_eq t id, hd.logical]
    rfl
  | write s src ofs =>
    refine .bind (cache_write_runs hd.ok hc.1 hc.2 hev) fun _ _ d' _ ⟨hw, ha⟩ => ?_
    refine .pure ⟨rfl, ha.size_eq, ⟨ha.ok, fun t => ?_⟩, by simp⟩
    by_cases e : t = s
    · subst e
      simp only [hw, hd.logical, flat, update_self]
    · simp only [ha.logical_eq t e, hd.logical, flat, update_of_ne e]
  | writeback last =>
    refine .bind (cache_writeback_runs hd.ok) fun _ _ d' _ ⟨ha, _, _, hdisk⟩ => ?_
    refine .pure ⟨rfl, ha.size_eq, ⟨ha.ok, fun t => ?_⟩, fun _ _ => ?_⟩
    · rw [ha.logical_eq t id, hd.logical]
      rfl
    · funext t
      rw [hdisk, hd.logical]
      rfl

/-- A sequence of calls. -/
theorem CacheCall.performAll_runs (hev : EvictsInTable ok) (cs : List CacheCall)
    (hcs : ∀ c ∈ cs, c.Valid d.size) (hd : Represents d m) :
    (performAll cs).Runs ok d fun _ outs d' =>
      outs = (flatAll cs m).1 ∧ Represents d' (flatAll cs m).2 ∧
      Synced cs d' (flatAll cs m).2 ∧ (cs = [] → d' = d) := by
  induction cs generalizing d m with
  | nil => exact .pure ⟨rfl, hd, fun _ h => (by cases h), fun _ => rfl⟩
  | cons c cs ih =>
    refine .bind (c.perform_runs hev (hcs c List.mem_cons_self) hd)
      fun _ out d' _ ⟨hout, hsize, hd', hlast⟩ => ?_
    refine .bind (ih (fun c' h => hsize ▸ hcs c' (List.mem_cons_of_mem _ h)) hd')
      fun _ outs d'' _ ⟨houts, hd'', hsync, hnil⟩ => ?_
    refine .pure ⟨by rw [hout, houts]; rfl, hd'', fun last h => ?_, by simp⟩
    cases cs with
    | nil =>
      rw [hnil rfl]
      exact hlast last (by simpa using h)
    | cons c' cs' => exact hsync last (by simpa using h)

end Runs

/-- **The buffer cache refines a flat disk.**  From `cache_init`, with fewer than `2 ^ 31 - 1`
evictions, a sequence of valid calls returns what the array of sectors returns; no two slots hold
one sector; every slot that is not dirty equals its sector; and if the last call is a write-back,
the disk is the array. -/
theorem cache_refines_flat (size : Nat) (disk : Sector → Block) (cs : List CacheCall)
    (hcs : ∀ c ∈ cs, c.Valid size)
    (hev : evictions (CacheCall.performAll cs (cache_init (Device.boot size disk))).1 <
      2 ^ 31 - 1) :
    ∃ d', (CacheCall.performAll cs (cache_init (Device.boot size disk))).2 =
        .done (CacheCall.flatAll cs disk).1 d' ∧
      (∀ i j s, d'.Holds i s → d'.Holds j s → i = j) ∧
      (∀ i s, d'.Holds i s → (d'.cache_table i).dirty = false →
        (d'.cache_table i).block = d'.disk s) ∧
      (∀ last, cs.getLast? = some (.writeback last) → d'.disk = (CacheCall.flatAll cs disk).2) := by
  have hrr : (cache_init (Device.boot size disk)).round_robin_idx = 0 := rfl
  have hnn := (CacheCall.counts_performAll cs _).nonneg (by rw [hrr]) (by rw [hrr]; omega)
  have hok : ∀ e ∈ (CacheCall.performAll cs (cache_init (Device.boot size disk))).1,
      e.InTable := fun e he => by
    cases e with
    | evict r => exact slotOf_of_nonneg (hnn r he)
    | _ => trivial
  obtain ⟨outs, d', hdone, hout, hrep, hsync, -⟩ :=
    CacheCall.performAll_runs (fun r h => h) cs hcs (represents_cache_init size disk) hok
  exact ⟨d', hout ▸ hdone, fun i j s hi hj => hrep.ok.unique hi hj,
    fun i s hi hc => hrep.ok.clean hi hc, hsync⟩

/-- A write, a read back and a write-back, with sector 1 cached. -/
theorem cache_refines_flat_three :
    let cs : List CacheCall := [.write 1 [7, 8] 510, .read 1 509 3, .writeback false]
    (∀ c ∈ cs, c.Valid 2) ∧
    evictions (CacheCall.performAll cs (cache_init (Device.boot 2 fun _ => Bytes.zero))).1 <
      2 ^ 31 - 1 ∧
    ∃ d', (CacheCall.performAll cs (cache_init (Device.boot 2 fun _ => Bytes.zero))).2 =
        .done [[], [0, 7, 8], []] d' ∧ (d'.disk 1).read 509 3 = [0, 7, 8] := by
  intro cs
  have hcs : ∀ c ∈ cs, c.Valid 2 := by
    simp [cs, CacheCall.Valid]
  have hev : evictions (CacheCall.performAll cs
      (cache_init (Device.boot 2 fun _ => Bytes.zero))).1 < 2 ^ 31 - 1 := by decide +kernel
  obtain ⟨d', hdone, -, -, hsync⟩ := cache_refines_flat 2 (fun _ => Bytes.zero) cs hcs hev
  refine ⟨hcs, hev, d', ?_, ?_⟩
  · rw [hdone]
    rfl
  · rw [hsync false rfl]
    rfl

end Pintos
