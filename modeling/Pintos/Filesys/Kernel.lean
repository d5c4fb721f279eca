import Pintos.Lib.Bitmap
import Pintos.Filesys.FileData

/-!
# Filesys — the state of the file system

Kernel memory holds the `struct inode`s of open files at addresses that `malloc` hands out; the
list `open_inodes` links them.  Both are generic in what an in-memory inode carries and in what
lies below: the file system proper runs over a `Volume`, the device with the free map.

An array on the stack starts with whatever the stack holds: `stack` is any stream of blocks, and
every uninitialised array takes the next one.
-/

namespace Pintos
open Support

/-- The address of a `struct inode`. -/
abbrev Addr : Type := Nat

/-- `struct inode`.  Calls do not overlap, so that a lock is held by the running thread or by
none. -/
structure Inode (ι : Type) where
  sector : Sector
  open_cnt : Int
  removed : Bool
  deny_write_cnt : Int
  inode_lock : Bool
  data : ι

/-- Kernel memory, as far as `inode.c` uses it, and what lies below. -/
structure Kernel (ι δ : Type) where
  mem : Addr → Option (Inode ι)
  /-- The next address `malloc` returns. -/
  next : Addr
  open_inodes : List Addr
  dev : δ

/-- The device, the static variables of `free-map.c` and the stack.  `free_map_file` is the inode
of the file. -/
structure Volume where
  device : Device
  free_map : Bitmap
  free_map_file : Option Addr
  stack : Nat → Block
  frame : Nat

/-- The state of the file system. -/
abbrev Fs : Type := Kernel InodeDisk Volume

namespace Kernel

variable {ι δ : Type}

/-- `k` with `inode` at `p`. -/
def setInode (k : Kernel ι δ) (p : Addr) (inode : Inode ι) : Kernel ι δ :=
  { k with mem := Function.update k.mem p (some inode) }

/-- `k` over another device. -/
def setDevice (k : Fs) (d : Device) : Fs := { k with dev := { k.dev with device := d } }

/-- `k` with another free map. -/
def setFreeMap (k : Fs) (b : Bitmap) : Fs := { k with dev := { k.dev with free_map := b } }

/-- The device. -/
abbrev device (k : Fs) : Device := k.dev.device

/-- The free map. -/
abbrev freeMap (k : Fs) : Bitmap := k.dev.free_map

@[simp] theorem setDevice_device (k : Fs) (d : Device) : (k.setDevice d).dev.device = d := rfl

@[simp] theorem setDevice_free_map (k : Fs) (d : Device) :
    (k.setDevice d).dev.free_map = k.dev.free_map := rfl

@[simp] theorem setDevice_mem (k : Fs) (d : Device) : (k.setDevice d).mem = k.mem := rfl

@[simp] theorem setDevice_file (k : Fs) (d : Device) :
    (k.setDevice d).dev.free_map_file = k.dev.free_map_file := rfl

@[simp] theorem setFreeMap_device (k : Fs) (b : Bitmap) :
    (k.setFreeMap b).dev.device = k.dev.device := rfl

@[simp] theorem setFreeMap_free_map (k : Fs) (b : Bitmap) : (k.setFreeMap b).dev.free_map = b := rfl

@[simp] theorem setFreeMap_mem (k : Fs) (b : Bitmap) : (k.setFreeMap b).mem = k.mem := rfl

@[simp] theorem setFreeMap_file (k : Fs) (b : Bitmap) :
    (k.setFreeMap b).dev.free_map_file = k.dev.free_map_file := rfl

end Kernel

/-- `*p`. -/
def deref {ι δ : Type} (p : Addr) : Machine Event (Kernel ι δ) (Inode ι) := do
  let k ← Machine.get
  match k.mem p with
  | some inode => pure inode
  | none => Machine.panic

/-- An operation of the device. -/
def onDevice {α : Type} (m : Machine Event Device α) : Machine Event Fs α :=
  m.zoom (fun k => k.dev.device) fun d k => k.setDevice d

/-- An array on the stack. -/
def uninit : Machine Event Fs Block := do
  let k ← Machine.get
  Machine.modify fun k => { k with dev := { k.dev with frame := k.dev.frame + 1 } }
  pure (k.dev.stack k.dev.frame)

theorem deref_run {ι δ : Type} {k : Kernel ι δ} {p : Addr} {inode : Inode ι}
    (h : k.mem p = some inode) : deref p k = ([], .done inode k) := by
  simp [deref, Machine.bind_run, h]

theorem onDevice_run {α : Type} {m : Machine Event Device α} {k : Fs} {es : List Event} {a : α}
    {d : Device} (h : m k.dev.device = (es, .done a d)) :
    onDevice m k = (es, .done a (k.setDevice d)) := by
  show Machine.zoom _ _ _ k = _
  simp only [Machine.zoom, h]

theorem onDevice_done {α : Type} {m : Machine Event Device α} {k k' : Fs} {es : List Event} {a : α}
    (h : onDevice m k = (es, .done a k')) :
    ∃ d, m k.dev.device = (es, .done a d) ∧ k' = k.setDevice d := by
  rcases hm : m k.dev.device with ⟨es', ⟨b, d⟩ | d⟩
  · cases (onDevice_run hm).symm.trans h
    exact ⟨d, rfl, rfl⟩
  · rw [show onDevice m k = (es', .panic (k.setDevice d)) by
      simp only [onDevice, Machine.zoom, hm]] at h
    cases h

/-- What an operation of the device does to the file system. -/
theorem onDevice_runs {α : Type} {ok : Event → Prop} {m : Machine Event Device α} {k : Fs}
    {Q : List Event → α → Device → Prop} (h : m.Runs ok k.device Q) :
    (onDevice m).Runs ok k fun es a k' => ∃ d, k' = k.setDevice d ∧ Q es a d :=
  Machine.Runs.zoom (h.mono fun _ _ d _ hQ => ⟨d, rfl, hQ⟩)

end Pintos
