import Pintos.Filesys.Release
import Pintos.Filesys.VolumeOk

/-!
# Filesys — runs of the table of open inodes

A client opens, reopens, removes and closes inodes, in any order and with any number of handles on
each; it opens inodes in use only and closes every handle at most once.  `TableRun` is the calls it
has made so far.

`open_inodes_sound`: at every point of every run the list has one inode for each sector that is
open, whose open count is the number of handles out on it; a second open returns the inode of the
first; the sectors of an inode are released once, at the close that takes the last handle of a
removed inode, and the last close of any other inode writes it to its sector.
-/

namespace Pintos
open Support Function List
open Kernel (malloc_mem setInode_mem)

/-- A call of a client. -/
inductive TableCall where
  | opens (sector : Sector)
  | reopens (p : Addr)
  | removes (p : Addr)
  | closes (p : Addr)

/-- The inodes of `S` that are in use. -/
def InUse (S : Sector → Prop) (k : Fs) (s : Sector) : Prop :=
  S s ∧ k.dev.free_map.bits s = true

/-- The handles out on the inode at `p`: those of the client, and the one that `free-map.c` has on
its file. -/
def outstanding (k : Fs) (handles : List Addr) (p : Addr) : Nat :=
  handles.count p + if k.dev.free_map_file = some p then 1 else 0

namespace TableCall

/-- The call, and the handles the client has after it. -/
def perform (handles : List Addr) : TableCall → Machine Event Fs (List Addr)
  | .opens sector => do
    let p ← inode_open disk_backend sector
    pure (p :: handles)
  | .reopens p => do
    let q ← inode_reopen p
    pure (q :: handles)
  | .removes p => do
    inode_remove p
    pure handles
  | .closes p => do
    inode_close disk_backend (some p)
    pure (handles.erase p)

/-- An inode in use is opened, or a handle is used that is out. -/
def Legal (S : Sector → Prop) (k : Fs) (handles : List Addr) : TableCall → Prop
  | .opens sector => InUse S k sector
  | .reopens p | .removes p | .closes p => p ∈ handles

/-- What the call does, from `k` with the events `es` to `k'`. -/
def Does (k : Fs) (handles : List Addr) (es : List Event) (k' : Fs) (handles' : List Addr) :
    TableCall → Prop
  | .opens sector => released es = [] ∧ ∃ p, handles' = p :: handles ∧
      (∀ q i, k.mem q = some i → i.sector = sector →
        p = q ∧ k'.mem = update k.mem p (some { i with open_cnt := i.open_cnt + 1 })) ∧
      ((∀ q i, k.mem q = some i → i.sector ≠ sector) → k.mem p = none ∧
        k'.mem = update k.mem p (some ⟨sector, 1, false, 0, false,
          InodeDisk.ofBlock (k.dev.device.disk sector)⟩))
  | .reopens p => released es = [] ∧ handles' = p :: handles ∧ ∀ i, k.mem p = some i →
      k'.mem = update k.mem p (some { i with open_cnt := i.open_cnt + 1 })
  | .removes p => released es = [] ∧ handles' = handles ∧ ∀ i, k.mem p = some i →
      k'.mem = update k.mem p (some { i with removed := true })
  | .closes p => handles' = handles.erase p ∧ ∀ i, k.mem p = some i →
      k'.mem = update k.mem p
        (if i.open_cnt = 1 then none else some { i with open_cnt := i.open_cnt - 1 }) ∧
      (i.open_cnt ≠ 1 → released es = []) ∧
      (i.open_cnt = 1 → i.removed = true →
        (released es).Nodup ∧ (released es).Perm (i.sector :: k.owned i.data)) ∧
      (i.open_cnt = 1 → i.removed = false →
        released es = [] ∧ k'.dev.device.disk i.sector = i.data.toBlock)

end TableCall

/-- The client has made calls with the events `T` and is now at `k` with `handles`. -/
inductive TableRun (S : Sector → Prop) (k₀ : Fs) (handles₀ : List Addr) :
    List Event → Fs → List Addr → Prop
  | start : TableRun S k₀ handles₀ [] k₀ handles₀
  | call {T es : List Event} {k k' : Fs} {handles handles' : List Addr} {c : TableCall}
      (before : TableRun S k₀ handles₀ T k handles) (legal : c.Legal S k handles)
      (run : c.perform handles k = (es, .done handles' k')) :
      TableRun S k₀ handles₀ (T ++ es) k' handles'

/-- A sound volume and the handles out on its inodes. -/
structure Client (S : Sector → Prop) (D : Sector → InodeDisk) (k : Fs) (handles : List Addr) :
    Prop where
  volume : VolOk (InUse S k) D k
  table : TableOk (outstanding k handles) k

/-! ### One call -/

section Emits

open Machine (Emits)
open Event (InTable)

theorem emits_release_all (R : List Sector) : Emits InTable (release_all R) :=
  Emits.forM fun s => emits_free_map_release s 1

theorem emits_free_level_two (one : Block) (count i : Nat) :
    Emits InTable (free_level_two one count i) :=
  Emits.bind (.zoom (emits_block_read _)) fun _ => .bind (emits_release_all _) fun _ =>
    emits_free_map_release _ _

theorem emits_free_inode (d : InodeDisk) : Emits InTable (free_inode d) := by
  have hone : ∀ n, Emits InTable (free_indirect d n) := fun n =>
    Emits.ite (.pure _) <| .bind (.zoom (emits_block_read _)) fun _ =>
      Emits.bind (emits_release_all _) fun _ => .bind (emits_free_map_release _ _) fun _ =>
      Emits.pure _
  have htwo : ∀ n, Emits InTable (free_double d n) := fun n =>
    Emits.ite (.pure _) <| .bind (.zoom (emits_block_read _)) fun _ =>
      Emits.bind (.forM fun i => emits_free_level_two _ _ i) fun _ =>
      Emits.ite (emits_free_map_release _ _) <| .bind (emits_free_level_two _ _ _) fun _ =>
      emits_free_map_release _ _
  exact .bind (emits_release_all _) fun _ => .bind (hone _) fun n => htwo n

theorem emits_inode_reopen {ι δ : Type} (p : Addr) :
    Emits InTable (inode_reopen p : Machine Event (Kernel ι δ) Addr) :=
  Emits.bind (emits_deref p) fun _ => .modify_bind (.pure _)

theorem emits_inode_remove {ι δ : Type} (p : Addr) :
    Emits InTable (inode_remove p : Machine Event (Kernel ι δ) Unit) :=
  Emits.bind (emits_deref p) fun _ => .modify _

theorem emits_inode_open (s : Sector) : Emits InTable (inode_open disk_backend s) := by
  refine .get_bind fun k => ?_
  split
  · exact emits_inode_reopen _
  · exact .bind (.bind (.zoom (emits_block_read s)) fun _ => .pure _) fun _ =>
      Emits.get_bind fun _ => .modify_bind (.pure _)

theorem emits_inode_close (p : Option Addr) : Emits InTable (inode_close disk_backend p) := by
  cases p with
  | none => exact .pure _
  | some p =>
    refine .bind (emits_deref p) fun i => .modify_bind (.ite ?_ (.pure _))
    refine .modify_bind (.bind (.ite ?_ ?_) fun _ => .modify _)
    · exact .bind (emits_free_map_release _ _) fun _ => emits_free_inode _
    · exact .zoom (emits_block_write _ _ _)

end Emits

section Step

variable {S : Sector → Prop} {D : Sector → InodeDisk} {k k' : Fs} {hs hs' : List Addr}
  {L : Sector → Prop} {p : Addr} {i j : Inode InodeDisk} {c : TableCall} {es : List Event}

theorem VolOk.setInode (h : VolOk L D k) (hp : k.mem p = some i) (hs : j.sector = i.sector)
    (hd : j.data = i.data) (hw : j.deny_write_cnt = i.deny_write_cnt) :
    VolOk L D (k.setInode p j) := by
  have hof : ∀ {q i'}, (k.setInode p j).mem q = some i' → ∃ i'', k.mem q = some i'' ∧
      i''.sector = i'.sector ∧ i''.data = i'.data := by
    intro q i' hq
    rw [setInode_mem] at hq
    split at hq
    · rename_i e
      cases hq
      exact ⟨i, e ▸ hp, hs.symm, hd.symm⟩
    · exact ⟨i', hq, rfl, rfl⟩
  refine h.frame id rfl h.cache rfl (fun _ _ => rfl) (fun _ => .inl) (fun _ _ => id) (fun hq => ?_)
    (fun hs' hcl => h.stored hs' fun q i' hq => ?_) h.map_live ?_
  · obtain ⟨i'', hq', e₁, e₂⟩ := hof hq
    rw [← e₁, ← e₂]
    exact h.loaded hq'
  · by_cases e : q = p
    · subst e
      obtain rfl : i = i' := Option.some.inj (hp.symm.trans hq)
      rw [← hs]
      exact hcl q j (by rw [setInode_mem, if_pos rfl])
    · exact hcl q i' (by rw [setInode_mem, if_neg e]; exact hq)
  · obtain ⟨q, i', hq, hi', hs', hw'⟩ := h.map_file
    by_cases e : q = p
    · subst e
      obtain rfl : i = i' := Option.some.inj (hp.symm.trans hi')
      exact ⟨q, j, hq, by rw [setInode_mem, if_pos rfl], hs.trans hs', hw.trans hw'⟩
    · exact ⟨q, i', hq, by rw [setInode_mem, if_neg e]; exact hi', hs', hw'⟩

theorem VolOk.malloc {s : Sector} (h : VolOk L D k) (htab : k.mem k.next = none) (hs : L s)
    (hcl : ∀ q i, k.mem q = some i → i.sector ≠ s) (hj : j.sector = s)
    (hd : j.data = InodeDisk.ofBlock (k.dev.device.disk s)) : VolOk L D (k.malloc j) := by
  have hold : ∀ {q i'}, k.mem q = some i' → (k.malloc j).mem q = some i' := by
    intro q i' hq
    rw [malloc_mem, if_neg]
    · exact hq
    · rintro rfl
      rw [htab] at hq
      cases hq
  refine h.frame id rfl h.cache rfl (fun _ _ => rfl) (fun _ => .inl) (fun _ _ => id) (fun hq => ?_)
    (fun hs' hcl' => h.stored hs' fun q i' hq => hcl' q i' (hold hq)) h.map_live ?_
  · rw [malloc_mem] at hq
    split at hq
    · cases hq
      exact ⟨hj ▸ hs, by rw [hd, hj]; exact h.stored hs hcl⟩
    · exact h.loaded hq
  · obtain ⟨q, i', hq, hi', hs', hw'⟩ := h.map_file
    exact ⟨q, i', hq, hold hi', hs', hw'⟩

theorem outstanding_cons (h : k'.dev.free_map_file = k.dev.free_map_file) (q : Addr) :
    outstanding k' (p :: hs) q = outstanding k hs q + if q = p then 1 else 0 := by
  rw [outstanding, outstanding, h, count_cons, if_congr beq_iff_eq rfl rfl,
    if_congr eq_comm rfl rfl]
  omega

theorem outstanding_erase (h : k'.dev.free_map_file = k.dev.free_map_file) (hp : p ∈ hs)
    (q : Addr) : outstanding k' (hs.erase p) q + (if q = p then 1 else 0) = outstanding k hs q := by
  have hpos : 0 < hs.count p := List.count_pos_iff.mpr hp
  rw [outstanding, outstanding, h]
  by_cases e : q = p
  · subst e
    rw [count_erase_self, if_pos rfl]
    omega
  · rw [count_erase_of_ne e, if_neg e]
    omega

/-- One more handle on an open inode. -/
theorem Client.reopen (h : Client S D k hs) (hp : k.mem p = some i) :
    Client S D (k.setInode p { i with open_cnt := i.open_cnt + 1 }) (p :: hs) := by
  have hout : ∀ q, outstanding (k.setInode p { i with open_cnt := i.open_cnt + 1 }) (p :: hs) q =
      outstanding k hs q + if q = p then 1 else 0 := outstanding_cons rfl
  refine ⟨h.volume.setInode hp rfl rfl rfl, h.table.setInode hp rfl ?_ ?_ fun q hq => ?_⟩
  · rw [hout, if_pos rfl]
    show i.open_cnt + 1 = _
    rw [h.table.counted hp]
    rfl
  · rw [hout, if_pos rfl]
    exact Nat.succ_pos _
  · rw [hout, if_neg hq]
    rfl

/-- The inode of the free map is not a client's to close for good. -/
theorem Client.not_map (h : Client S D k hs) (hp : k.mem p = some i) (hm : p ∈ hs)
    (hc : i.open_cnt = 1) : i.sector ≠ FREE_MAP_SECTOR ∧ k.dev.free_map_file ≠ some p := by
  have hcount := h.table.counted hp
  have hpos : 0 < hs.count p := List.count_pos_iff.mpr hm
  have hf : k.dev.free_map_file ≠ some p := by
    intro hf
    rw [outstanding, if_pos hf] at hcount
    omega
  refine ⟨fun e => ?_, hf⟩
  obtain ⟨q, j, hq, hj, hjs, -⟩ := h.volume.map_file
  rw [h.table.unique hp hj (e.trans hjs.symm)] at hf
  exact hf hq

/-- The last handle goes. -/
theorem Client.drop (h : Client S D k hs) (hp : k.mem p = some i) (hm : p ∈ hs)
    (hc : i.open_cnt = 1) (hd : Dropped p k k')
    (hf : k'.dev.free_map_file = k.dev.free_map_file) : TableOk (outstanding k' (hs.erase p)) k' := by
  have hcount := h.table.counted hp
  have hfree : k'.free p = k' := by
    have : update k'.mem p none = k'.mem :=
      update_eq_self_iff.mpr (by rw [hd.mem, if_pos rfl])
    rw [Kernel.free, this]
  rw [← hfree]
  refine h.table.free (fun q hq => by rw [hd.mem, if_neg hq]) hd.next hd.open_inodes fun q => ?_
  rw [hfree]
  have hout := outstanding_erase hf hm q
  split <;> rename_i e
  · subst e
    rw [if_pos rfl] at hout
    omega
  · rw [if_neg e] at hout
    exact hout

/-- A call keeps the client's volume and table sound, clears the bits it releases and no others,
and does what it is there for. -/
structure CallSound (S : Sector → Prop) (D : Sector → InodeDisk) (k : Fs) (hs : List Addr)
    (c : TableCall) (es : List Event) (k' : Fs) (hs' : List Addr) : Prop where
  client : Client S D k' hs'
  bits : ∀ t, k'.dev.free_map.bits t = true ↔ k.dev.free_map.bits t = true ∧ t ∉ released es
  does : c.Does k hs es k' hs'

theorem opens_runs {s : Sector} (h : Client S D k hs) (hs' : InUse S k s) :
    ((TableCall.opens s).perform hs).Runs Event.InTable k fun es hs' k' =>
      CallSound S D k hs (.opens s) es k' hs' := by
  have hbits : ∀ {k' : Fs}, k'.dev = k.dev → ∀ t, k'.dev.free_map.bits t = true ↔
      k.dev.free_map.bits t = true ∧ t ∉ released [] := fun e t => by rw [e]; simp [released]
  by_cases hop : ∃ p i, k.mem p = some i ∧ i.sector = s
  · obtain ⟨p, i, hp, hsec⟩ := hop
    refine .silent_bind (inode_open_hit h.table hp hsec) (.pure ?_)
    refine ⟨h.reopen hp, hbits rfl, rfl, p, rfl, fun q j hq hj => ?_, fun hn => ?_⟩
    · obtain rfl := h.table.unique hp hq (hsec.trans hj.symm)
      obtain rfl : i = j := Option.some.inj (hp.symm.trans hq)
      exact ⟨rfl, rfl⟩
    · exact absurd hsec (hn p i hp)
  · have hcl : ∀ q i, k.mem q = some i → i.sector ≠ s := fun q i hq e => hop ⟨q, i, hq, e⟩
    have hnext : k.mem k.next = none := h.table.fresh _ le_rfl
    refine .bind (inode_open_miss h.table hcl (.of_run (disk_load_run (h.volume.valid hs')) ?_))
      (Q := fun es p k' => CallSound S D k hs (.opens s) es k' (p :: hs))
      fun es p k' _ hQ => .pure (by rw [append_nil]; exact hQ)
    refine ⟨⟨h.volume.malloc hnext hs' hcl rfl rfl, ?_⟩, hbits rfl, rfl, k.next, rfl,
      fun q j hq hj => absurd hj (hcl q j hq), fun _ => ⟨hnext, rfl⟩⟩
    refine h.table.malloc hcl rfl fun q => ?_
    refine (outstanding_cons (k := k) rfl q).trans ?_
    split
    · rename_i e
      subst e
      have hzero : outstanding k hs k.next = 0 := Nat.eq_zero_of_not_pos fun hpos => by
        obtain ⟨i, hi⟩ := (h.table.handles _).mp hpos
        rw [hnext] at hi
        cases hi
      rw [hzero]
    · rfl

theorem closes_runs (h : Client S D k hs) (hm : p ∈ hs) :
    ((TableCall.closes p).perform hs).Runs Event.InTable k fun es hs' k' =>
      CallSound S D k hs (.closes p) es k' hs' := by
  obtain ⟨i, hp⟩ := (h.table.handles p).mp (Nat.add_pos_left (List.count_pos_iff.mpr hm) _)
  have huniq : ∀ {j}, k.mem p = some j → i = j := fun hj => Option.some.inj (hp.symm.trans hj)
  have hmem : ∀ {k'}, i.open_cnt = 1 → Dropped p k k' → k'.mem = update k.mem p
      (if i.open_cnt = 1 then none else some { i with open_cnt := i.open_cnt - 1 }) :=
    fun hc hd => funext fun q => by rw [hd.mem, if_pos hc, update_apply]
  by_cases hc : i.open_cnt = 1
  · obtain ⟨hne, -⟩ := h.not_map hp hm hc
    have hL := (h.volume.loaded hp).1
    have hdata := (h.volume.loaded hp).2
    cases hr : i.removed with
    | false =>
      refine .bind (inode_close_stores h.volume hp hc hr hne)
        fun es _ k' _ ⟨hes, hd, hdev, hv⟩ => .pure ?_
      have hrel : released (es ++ []) = [] := by rw [hes]; rfl
      have hb : k'.dev.free_map = k.dev.free_map := by rw [hdev]; rfl
      refine ⟨⟨?_, h.drop hp hm hc hd (by rw [hdev]; rfl)⟩, fun t => ?_, rfl, fun j hj => ?_⟩
      · unfold InUse
        rw [hb]
        exact hv
      · rw [hb, hrel]
        simp
      · obtain rfl := huniq hj
        refine ⟨hmem hc hd, fun h' => absurd hc h', fun _ h' => absurd (hr.symm.trans h') (by simp),
          fun _ _ => ⟨hrel, ?_⟩⟩
        rw [hdev]
        exact update_self ..
    | true =>
      refine .bind (inode_close_discards (fun _ he => he) h.volume h.table hp hc hr
        hne) fun es _ k' _ ⟨hperm, hd, hf, hb, hv⟩ => .pure ?_
      rw [append_nil]
      have hnd : (i.sector :: k.owned i.data).Nodup := by
        rw [hdata]
        exact List.nodup_cons.mpr ⟨h.volume.apart hL hL, (h.volume.laid hL).nodup⟩
      -- what is in use now is what was, less the inode that was freed
      have huse : InUse S k' = fun s => InUse S k s ∧ s ≠ i.sector := by
        funext s
        refine propext ⟨fun ⟨hS, hs⟩ => ?_, fun ⟨⟨hS, hs⟩, hne'⟩ => ⟨hS, (hb s).mpr ⟨hs, ?_⟩⟩⟩
        · obtain ⟨hs, hout⟩ := (hb s).mp hs
          exact ⟨⟨hS, hs⟩, fun e => hout (hperm.mem_iff.mpr (e ▸ List.mem_cons_self ..))⟩
        · rw [hperm.mem_iff, List.mem_cons, not_or, hdata]
          exact ⟨hne', h.volume.apart hL ⟨hS, hs⟩⟩
      refine ⟨⟨huse ▸ hv, h.drop hp hm hc hd hf⟩, hb, rfl, fun j hj => ?_⟩
      obtain rfl := huniq hj
      exact ⟨hmem hc hd, fun h' => absurd hc h', fun _ _ => ⟨hperm.nodup_iff.mpr hnd, hperm⟩,
        fun _ h' => absurd (hr.symm.trans h') (by simp)⟩
  · refine .silent_bind (inode_close_more hp hc) (.pure ?_)
    refine ⟨⟨h.volume.setInode hp rfl rfl rfl, ?_⟩, by simp [released], rfl, fun j hj => ?_⟩
    · have hcount : i.open_cnt = outstanding k hs p := h.table.counted hp
      have hout := fun q => outstanding_erase (q := q) (show (k.setInode p
        { i with open_cnt := i.open_cnt - 1 }).dev.free_map_file = k.dev.free_map_file from rfl) hm
      have hself := hout p
      rw [if_pos rfl] at hself
      refine h.table.setInode hp rfl ?_ ?_ fun q hq => ?_
      · show i.open_cnt - 1 = _
        omega
      · omega
      · have hother := hout q
        rw [if_neg hq] at hother
        exact hother
    · obtain rfl := huniq hj
      exact ⟨by rw [if_neg hc]; rfl, fun _ => rfl, fun h' => absurd h' hc, fun h' => absurd h' hc⟩

theorem TableCall.perform_runs (h : Client S D k hs) (hc : c.Legal S k hs) :
    (c.perform hs).Runs Event.InTable k fun es hs' k' => CallSound S D k hs c es k' hs' := by
  have hopen : ∀ {p}, p ∈ hs → ∃ i, k.mem p = some i := fun {p} hm =>
    (h.table.handles p).mp (Nat.add_pos_left (List.count_pos_iff.mpr hm) _)
  cases c with
  | opens s => exact opens_runs h hc
  | reopens p =>
    obtain ⟨i, hp⟩ := hopen hc
    refine .silent_bind (inode_reopen_run hp) (.pure ?_)
    refine ⟨h.reopen hp, by simp [released], rfl, rfl, fun j hj => ?_⟩
    cases hp.symm.trans hj
    rfl
  | removes p =>
    obtain ⟨i, hp⟩ := hopen hc
    refine .silent_bind (inode_remove_run hp) (.pure ?_)
    refine ⟨⟨h.volume.setInode hp rfl rfl rfl, ?_⟩, by simp [released], rfl, rfl, fun j hj => ?_⟩
    · have hcount : i.open_cnt = outstanding k hs p := h.table.counted hp
      exact h.table.setInode hp rfl hcount ((h.table.handles p).mpr ⟨i, hp⟩) fun _ _ => rfl
    · cases hp.symm.trans hj
      rfl
  | closes p => exact closes_runs h hc

theorem TableCall.emits_perform (c : TableCall) (hs : List Addr) :
    Machine.Emits Event.InTable (c.perform hs) := by
  cases c with
  | opens s => exact .bind (emits_inode_open s) fun _ => .pure _
  | reopens p => exact .bind (emits_inode_reopen p) fun _ => .pure _
  | removes p => exact .bind (emits_inode_remove p) fun _ => .pure _
  | closes p => exact .bind (emits_inode_close _) fun _ => .pure _

/-- What a legal call that returned did. -/
theorem TableCall.perform_done (h : Client S D k hs) (hc : c.Legal S k hs)
    (hr : c.perform hs k = (es, .done hs' k')) : CallSound S D k hs c es k' hs' :=
  (c.perform_runs h hc).of_done hr (c.emits_perform hs hr)

end Step

/-! ### Runs -/

section Runs

variable {S : Sector → Prop} {D : Sector → InodeDisk} {k₀ k : Fs} {hs₀ hs : List Addr}
  {T : List Event}

/-- A call releases sectors in use, each once. -/
theorem TableCall.Does.released_used {c : TableCall} {es : List Event} {k' : Fs}
    {hs' : List Addr} (h : Client S D k hs) (hc : c.Legal S k hs) (hd : c.Does k hs es k' hs') :
    (released es).Nodup ∧ ∀ t ∈ released es, k.dev.free_map.bits t = true := by
  have hnone : released es = [] → (released es).Nodup ∧
      ∀ t ∈ released es, k.dev.free_map.bits t = true := by
    intro e
    rw [e]
    exact ⟨nodup_nil, fun t ht => absurd ht not_mem_nil⟩
  cases c with
  | opens s => exact hnone hd.1
  | reopens p => exact hnone hd.1
  | removes p => exact hnone hd.1
  | closes p =>
    obtain ⟨i, hp⟩ := (h.table.handles p).mp (Nat.add_pos_left (List.count_pos_iff.mpr hc) _)
    obtain ⟨-, hmore, hfree, hstore⟩ := hd.2 i hp
    obtain ⟨hL, hdata⟩ := h.volume.loaded hp
    by_cases hone : i.open_cnt = 1
    · cases hr : i.removed with
      | false => exact hnone (hstore hone hr).1
      | true =>
        obtain ⟨hnd, hperm⟩ := hfree hone hr
        refine ⟨hnd, fun t ht => ?_⟩
        rw [hperm.mem_iff, List.mem_cons, hdata] at ht
        rcases ht with rfl | ht
        · exact h.volume.marked hL
        · exact h.volume.used hL ht
    · exact hnone (hmore hone)

/-- What the calls so far preserve: a sound client, and no sector released twice.  A sector that
was released is out of use, and a close releases sectors in use. -/
theorem TableRun.sound (h₀ : Client S D k₀ hs₀) (hrun : TableRun S k₀ hs₀ T k hs) :
    Client S D k hs ∧ (released T).Nodup ∧ ∀ t ∈ released T, k.dev.free_map.bits t ≠ true := by
  induction hrun with
  | start => exact ⟨h₀, nodup_nil, fun t ht => absurd ht not_mem_nil⟩
  | @call T es k k' hs hs' c before legal run ih =>
    obtain ⟨hk, hnd, hout⟩ := ih
    obtain ⟨hk', hbits, hdoes⟩ := TableCall.perform_done hk legal run
    have hes := hdoes.released_used hk legal
    refine ⟨hk', ?_, fun t ht hb => ?_⟩
    · rw [released_append]
      exact List.nodup_append.mpr ⟨hnd, hes.1, fun t ht u hu e => hout t ht (e ▸ hes.2 u hu)⟩
    · rw [released_append, mem_append] at ht
      obtain ⟨hb, hnot⟩ := (hbits t).mp hb
      exact ht.elim (fun ht => hout t ht hb) hnot

/-- The list at `k`: each open sector has one inode, and an inode is in the list while handles are
out on it. -/
structure ListSound (k : Fs) (handles : List Addr) : Prop where
  nodup : k.open_inodes.Nodup
  one_per_sector : ∀ p ∈ k.open_inodes, ∀ q ∈ k.open_inodes, ∀ i j, k.mem p = some i →
    k.mem q = some j → i.sector = j.sector → p = q
  listed : ∀ p, p ∈ k.open_inodes ↔ 0 < outstanding k handles p
  counted : ∀ p ∈ k.open_inodes, ∃ i, k.mem p = some i ∧ i.open_cnt = outstanding k handles p

/-- The table of open inodes, over every run of legal calls. -/
theorem open_inodes_sound (h₀ : Client S D k₀ hs₀) (hrun : TableRun S k₀ hs₀ T k hs) :
    ListSound k hs ∧ (released T).Nodup ∧ ∀ c : TableCall, c.Legal S k hs →
      (∀ es k' hs', c.perform hs k = (es, .done hs' k') → c.Does k hs es k' hs' ∧
        ∀ t, k'.dev.free_map.bits t = true ↔ k.dev.free_map.bits t = true ∧ t ∉ released es) ∧
      -- a legal call returns, as long as the index of the cache names a slot
      ((∃ hs' k', (c.perform hs k).2 = .done hs' k') ∨
        ∃ r, Event.evict r ∈ (c.perform hs k).1 ∧ slotOf r = none) := by
  obtain ⟨hk, hnd, -⟩ := hrun.sound h₀
  refine ⟨⟨hk.table.nodup, fun p _ q _ i j hp hq => hk.table.unique hp hq, fun p => ?_,
    fun p hp => ?_⟩, hnd, fun c hc => ⟨fun es k' hs' hr => ?_, ?_⟩⟩
  · exact (hk.table.listed p).trans (hk.table.handles p).symm
  · obtain ⟨i, hi⟩ := (hk.table.listed p).mp hp
    exact ⟨i, hi, hk.table.counted hi⟩
  · obtain ⟨-, hbits, hdoes⟩ := TableCall.perform_done hk hc hr
    exact ⟨hdoes, hbits⟩
  · by_cases hok : ∀ e ∈ (c.perform hs k).1, e.InTable
    · obtain ⟨hs', k', hdone, -⟩ := c.perform_runs hk hc hok
      exact .inl ⟨hs', k', hdone⟩
    · obtain ⟨e, he, hout⟩ : ∃ e ∈ (c.perform hs k).1, ¬ e.InTable := by
        by_contra hall
        exact hok fun e he => by_contra fun h => hall ⟨e, he, h⟩
      cases e with
      | evict r => exact .inr ⟨r, he, Option.eq_none_iff_forall_ne_some.mpr fun i hi => hout ⟨i, hi⟩⟩
      | _ => exact absurd trivial hout

/-! ### Mounted devices with nothing else open -/

/-- `idleFs` with another disk. -/
def idleVolume (size used : Nat) (disk : Sector → Block) : Fs :=
  (idleFs size used).setDevice { (idleFs size used).dev.device with disk := disk }

section Idle

variable {size used : Nat} {disk : Sector → Block}

theorem idleVolume_mem {p : Addr} {i : Inode InodeDisk}
    (hp : (idleVolume size used disk).mem p = some i) :
    p = 0 ∧ i = ⟨FREE_MAP_SECTOR, 1, false, 0, false, idleFreeMapInode (byte_cnt size)⟩ := by
  by_cases e : p = 0
  · subst e
    exact ⟨rfl, (Option.some.inj hp).symm⟩
  · have hnone : (idleVolume size used disk).mem p = none := if_neg e
    rw [hnone] at hp
    cases hp

/-- The one handle is that on the free map's file. -/
theorem tableOk_idleVolume :
    TableOk (fun p => if p = 0 then 1 else 0) (idleVolume size used disk) := by
  refine ⟨nodup_singleton _, fun p => ?_, fun p hp => ?_, fun hp hq _ => ?_, fun hp => ?_,
    fun p => ?_⟩
  · rw [show (idleVolume size used disk).open_inodes = [0] from rfl, List.mem_singleton]
    exact ⟨fun e => ⟨_, by rw [e]; rfl⟩, fun ⟨i, hi⟩ => (idleVolume_mem hi).1⟩
  · exact if_neg (Nat.pos_iff_ne_zero.mp hp)
  · rw [(idleVolume_mem hp).1, (idleVolume_mem hq).1]
  · obtain ⟨rfl, rfl⟩ := idleVolume_mem hp
    rfl
  · refine ⟨fun h => ?_, fun ⟨i, hi⟩ => by rw [(idleVolume_mem hi).1]; decide⟩
    split at h
    · rename_i e
      exact ⟨_, by rw [e]; rfl⟩
    · exact absurd h (lt_irrefl 0)

/-- A file of one sector. -/
theorem laid_one {d : InodeDisk} (hn : d.sectors = 1) (hd : d.direct_count = 1)
    (hi : d.indirect_count = 0) (hdd : d.double_indirect_count = 0) (hb : d.block 0 < size) :
    Laid size disk d d.sectors ∧ ownedSectors disk d d.sectors = [d.block 0] := by
  have hown : ownedSectors disk d 1 = [d.block 0] := rfl
  rw [hn]
  refine ⟨⟨by omega, hd, hi, hdd, hown ▸ nodup_singleton _, fun t ht => ?_⟩, hown⟩
  rw [hown, List.mem_singleton] at ht
  exact ht ▸ hb

theorem outstanding_idle :
    outstanding (idleVolume size used disk) [] = fun q => if q = 0 then 1 else 0 := by
  funext q
  show 0 + (if some 0 = some q then 1 else 0) = _
  rw [Nat.zero_add, if_congr (Option.some_inj.trans eq_comm) rfl rfl]

/-- The device is sound if its files are, each on its own sectors. -/
theorem volOk_idleVolume {L : Sector → Prop} {D : Sector → InodeDisk} (hsize : size ≤ 2 ^ 32)
    (hused : used ≤ size) (h₀ : L FREE_MAP_SECTOR)
    (hmap : D FREE_MAP_SECTOR = idleFreeMapInode (byte_cnt size))
    (hfile : ∀ s, L s → s < used ∧ (D s).InRange ∧ disk s = (D s).toBlock)
    (hlaid : ∀ s, L s → Laid size disk (D s) (D s).sectors)
    (hown : ∀ s, L s → ∀ t ∈ ownedSectors disk (D s) (D s).sectors, t < used ∧ ¬ L t)
    (hdisj : ∀ s s' t, L s → L s' → t ∈ ownedSectors disk (D s) (D s).sectors →
      t ∈ ownedSectors disk (D s') (D s').sectors → s = s') :
    VolOk L D (idleVolume size used disk) := by
  have hnone : ∀ t, ¬ (idleVolume size used disk).dev.device.Resident t := by
    rintro t ⟨i, ho, -⟩
    cases ho
  have hmark : ∀ t, t < used → (idleVolume size used disk).dev.free_map.bits t = true :=
    fun t ht => decide_eq_true ht
  refine {
      cache := ⟨fun hi => absurd ⟨_, hi⟩ (hnone _), fun hi => absurd ⟨_, hi⟩ (hnone _),
        fun _ => rfl, fun hr => absurd hr (hnone _)⟩
      width := rfl
      small := hsize
      valid := fun hs => (hfile _ hs).1.trans_le hused
      marked := fun hs => hmark _ (hfile _ hs).1
      unheld := fun _ => hnone _
      inRange := fun hs => (hfile _ hs).2.1
      laid := fun hs => hlaid _ hs
      index_unheld := fun _ _ => hnone _
      used := fun {s t} hs ht => hmark t (hown s hs t ht).1
      apart := fun {s t} hs ht hm => (hown s hs t hm).2 ht
      disjoint := fun {s s' t} hs hs' ht ht' => hdisj s s' t hs hs' ht ht'
      loaded := fun hp => ?_
      stored := fun {s} hs hcl => ?_
      map_live := h₀
      map_length := ?_
      map_file := ⟨0, _, rfl, rfl, rfl, rfl⟩ }
  · obtain ⟨-, rfl⟩ := idleVolume_mem hp
    exact ⟨h₀, hmap.symm⟩
  · show InodeDisk.ofBlock (disk s) = D s
    rw [(hfile s hs).2.2]
    exact InodeDisk.ofBlock_toBlock (hfile s hs).2.1
  · rw [hmap]
    exact le_rfl

end Idle

/-- A file of one sector. -/
def smallFile : InodeDisk :=
  { InodeDisk.fresh false with
    blocks := update (fun _ => 0) 0 4, direct_count := 1, length := 512 }

/-- A mounted device with one closed file: its inode in sector 3, its data in sector 4. -/
def smallFs : Fs := (idleFs 8 5).setDevice { (idleFs 8 5).dev.device with
  disk := update (idleFs 8 5).dev.device.disk 3 smallFile.toBlock }

/-- The inodes of `smallFs`. -/
def smallInodes (s : Sector) : InodeDisk :=
  if s = 3 then smallFile else idleFreeMapInode (byte_cnt 8)

theorem client_smallFs : Client (fun s => s = 0 ∨ s = 3) smallInodes smallFs [] := by
  have hlaid : ∀ s, s = 0 ∨ s = 3 → Laid 8 smallFs.dev.device.disk (smallInodes s)
      (smallInodes s).sectors ∧ ownedSectors smallFs.dev.device.disk (smallInodes s)
      (smallInodes s).sectors = [(smallInodes s).block 0] := by
    rintro s (rfl | rfl) <;> exact laid_one rfl rfl rfl rfl (by decide)
  refine ⟨volOk_idleVolume (by omega) (by omega) ⟨.inl rfl, rfl⟩ rfl ?_
    (fun s hs => (hlaid s hs.1).1) ?_ ?_, outstanding_idle ▸ tableOk_idleVolume⟩
  · rintro s ⟨rfl | rfl, -⟩ <;> exact ⟨by decide, InodeDisk.inRange_of_lt (by decide), rfl⟩
  · rintro s ⟨hs, -⟩ t ht
    obtain rfl := List.mem_singleton.mp ((hlaid s hs).2 ▸ ht)
    rcases hs with rfl | rfl <;> exact ⟨by decide, fun h => by cases h.1 <;> contradiction⟩
  · rintro s s' t ⟨hs, -⟩ ⟨hs', -⟩ ht ht'
    obtain rfl := List.mem_singleton.mp ((hlaid s hs).2 ▸ ht)
    have hb := List.mem_singleton.mp ((hlaid s' hs').2 ▸ ht')
    rcases hs with rfl | rfl <;> rcases hs' with rfl | rfl <;> first | rfl | cases hb

/-- The file is opened and reopened, removed, and closed twice: the last close releases its inode and
its sector. -/
theorem open_inodes_sound_smallFs : ∃ T k,
    Client (fun s => s = 0 ∨ s = 3) smallInodes smallFs [] ∧
    TableRun (fun s => s = 0 ∨ s = 3) smallFs [] T k [] ∧ released T = [3, 4] ∧ ListSound k [] := by
  have hcalls : ((returned ((TableCall.opens 3).perform [] smallFs)).bind fun r₁ =>
      (returned ((TableCall.reopens 1).perform r₁.2.1 r₁.2.2)).bind fun r₂ =>
      (returned ((TableCall.removes 1).perform r₂.2.1 r₂.2.2)).bind fun r₃ =>
      (returned ((TableCall.closes 1).perform r₃.2.1 r₃.2.2)).bind fun r₄ =>
      (returned ((TableCall.closes 1).perform r₄.2.1 r₄.2.2)).map fun r₅ =>
        ((r₁.2.1, r₂.2.1, r₃.2.1, r₄.2.1), r₅.2.1,
          released ([] ++ r₁.1 ++ r₂.1 ++ r₃.1 ++ r₄.1 ++ r₅.1))) =
      some (([1], [1, 1], [1, 1], [1]), [], [3, 4]) := by decide +kernel
  obtain ⟨⟨es₁, hs₁, k₁⟩, h₁, hcalls⟩ := Option.bind_eq_some_iff.mp hcalls
  obtain ⟨⟨es₂, hs₂, k₂⟩, h₂, hcalls⟩ := Option.bind_eq_some_iff.mp hcalls
  obtain ⟨⟨es₃, hs₃, k₃⟩, h₃, hcalls⟩ := Option.bind_eq_some_iff.mp hcalls
  obtain ⟨⟨es₄, hs₄, k₄⟩, h₄, hcalls⟩ := Option.bind_eq_some_iff.mp hcalls
  obtain ⟨⟨es₅, hs₅, k₅⟩, h₅, hcalls⟩ := Option.map_eq_some_iff.mp hcalls
  simp only [Prod.mk.injEq] at hcalls
  obtain ⟨⟨rfl, rfl, rfl, rfl⟩, rfl, hreleased⟩ := hcalls
  have run : TableRun (fun s => s = 0 ∨ s = 3) smallFs [] [] smallFs [] := .start
  have run := run.call (c := .opens 3) ⟨.inr rfl, rfl⟩ (returned_eq_some h₁)
  have run := run.call (c := .reopens 1) (mem_cons_self ..) (returned_eq_some h₂)
  have run := run.call (c := .removes 1) (mem_cons_self ..) (returned_eq_some h₃)
  have run := run.call (c := .closes 1) (mem_cons_self ..) (returned_eq_some h₄)
  have run := run.call (c := .closes 1) (mem_cons_self ..) (returned_eq_some h₅)
  exact ⟨_, _, client_smallFs, run, hreleased, (open_inodes_sound client_smallFs run).1⟩

/-- The inodes of `staleDisk`. -/
def staleInodes (s : Sector) : InodeDisk :=
  if s = 3 then staleInode else idleFreeMapInode (byte_cnt 200)

/-- With an empty cache the device is sound. -/
theorem client_staleDisk :
    Client (fun s => s = 0 ∨ s = 3) staleInodes (idleVolume 200 30 staleDisk) [] := by
  have hthree : ownedSectors staleDisk (staleInodes 3) (staleInodes 3).sectors =
      23 :: (range' 10 13 ++ [24]) := ownedSectors_staleInode rfl
  obtain ⟨hlaid₀, hzero⟩ : Laid 200 staleDisk (staleInodes 0) (staleInodes 0).sectors ∧
      ownedSectors staleDisk (staleInodes 0) (staleInodes 0).sectors = [2] :=
    laid_one rfl rfl rfl rfl (by decide)
  have hlaid : Laid 200 staleDisk (staleInodes 3) (staleInodes 3).sectors :=
    (consistent_staleInode (k := idleVolume 200 30 staleDisk) rfl rfl rfl).laid
  refine ⟨volOk_idleVolume (by omega) (by omega) ⟨.inl rfl, rfl⟩ rfl ?_ ?_ ?_ ?_,
    outstanding_idle ▸ tableOk_idleVolume⟩
  · rintro s ⟨rfl | rfl, -⟩ <;> exact ⟨by decide, InodeDisk.inRange_of_lt (by decide), rfl⟩
  · rintro s ⟨rfl | rfl, -⟩
    · exact hlaid₀
    · exact hlaid
  · have hne : ∀ t ∈ (2 :: 23 :: (range' 10 13 ++ [24]) : List Nat), t < 30 ∧ t ≠ 0 ∧ t ≠ 3 := by
      decide
    rintro s ⟨rfl | rfl, -⟩ t ht
    · rw [hzero, List.mem_singleton] at ht
      obtain ⟨h₁, h₂, h₃⟩ := hne t (ht ▸ mem_cons_self ..)
      exact ⟨h₁, fun h => h.1.elim h₂ h₃⟩
    · rw [hthree] at ht
      obtain ⟨h₁, h₂, h₃⟩ := hne t (mem_cons_of_mem _ ht)
      exact ⟨h₁, fun h => h.1.elim h₂ h₃⟩
  · have hnot : (2 : Nat) ∉ (23 :: (range' 10 13 ++ [24]) : List Nat) := by decide
    rintro s s' t ⟨rfl | rfl, -⟩ ⟨rfl | rfl, -⟩ ht ht'
    · rfl
    · rw [hzero, List.mem_singleton] at ht
      exact absurd (ht ▸ hthree ▸ ht') hnot
    · rw [hzero, List.mem_singleton] at ht'
      exact absurd (ht' ▸ hthree ▸ ht) hnot
    · rfl

/-- The same disk under a full cache with old contents of the index block: the last close of the
removed inode releases a sector of another file. -/
theorem stale_slot_leaks : CacheOk staleFs.dev.device ∧
    Client (fun s => s = 0 ∨ s = 3) staleInodes (idleVolume 200 30 staleFs.dev.device.disk) [] ∧
    ∃ T k es k', TableRun (fun s => s = 0 ∨ s = 3) staleFs [] T k [1] ∧
      (TableCall.closes 1).perform [1] k = (es, .done [] k') ∧
      ¬ (TableCall.closes 1).Does k [1] es k' [] := by
  have hcalls : ((returned ((TableCall.opens 3).perform [] staleFs)).bind fun r₁ =>
      (returned ((TableCall.removes 1).perform r₁.2.1 r₁.2.2)).bind fun r₂ =>
      (returned ((TableCall.closes 1).perform r₂.2.1 r₂.2.2)).map fun r₃ =>
        ((r₁.2.1, r₂.2.1, r₃.2.1), (r₂.2.2.mem 1).any fun i =>
          i.removed && decide (i.open_cnt = 1) && decide (5 ∈ released r₃.1) &&
            decide (5 ∉ i.sector :: r₂.2.2.owned i.data))) =
      some (([1], [1], []), true) := by decide +kernel
  obtain ⟨⟨es₁, hs₁, k₁⟩, h₁, hcalls⟩ := Option.bind_eq_some_iff.mp hcalls
  obtain ⟨⟨es₂, hs₂, k₂⟩, h₂, hcalls⟩ := Option.bind_eq_some_iff.mp hcalls
  obtain ⟨⟨es₃, hs₃, k₃⟩, h₃, hcalls⟩ := Option.map_eq_some_iff.mp hcalls
  simp only [Prod.mk.injEq] at hcalls
  obtain ⟨⟨rfl, rfl, rfl⟩, hi⟩ := hcalls
  obtain ⟨i, hp, hi⟩ := (Option.any_eq_true _ _).mp hi
  simp only [Bool.and_eq_true, decide_eq_true_eq] at hi
  obtain ⟨⟨⟨hr, hc⟩, hin⟩, hout⟩ := hi
  have run : TableRun (fun s => s = 0 ∨ s = 3) staleFs [] [] staleFs [] := .start
  have run := run.call (c := .opens 3) ⟨.inr rfl, rfl⟩ (returned_eq_some h₁)
  have run := run.call (c := .removes 1) (mem_cons_self ..) (returned_eq_some h₂)
  refine ⟨cacheOk_staleFs true, client_staleDisk, _, _, _, _, run, returned_eq_some h₃, fun hd => ?_⟩
  obtain ⟨-, -, hfree, -⟩ := hd.2 i hp
  exact hout ((hfree hc hr).2.mem_iff.mp hin)

end Runs

end Pintos
