import Mathlib.Data.Finset.Card
import Mathlib.Tactic

/-!
# Support — Slots

A finite map kept in slots: each key has one, a new key takes the first free one or a new one at the
end, and a key that goes leaves its slot behind (`Slots.Step`).  The map is what the changes say
(`Change.map`), and the slots hold it (`Slots.Holds`).

* `Step.holds`: a change of the slots is the change of the map.
* `Step.count`: there are as many slots as there were ever keys at once, or as many as there were at
  the start.
* `Scan.exact`: a scan over the slots, with changes between its steps, passes every key that is
  there all the time once, and passes no key that is never there.
-/

namespace Support
open Function

/-- A change of a map. -/
inductive Change (ν σ : Type) where
  | added (n : ν) (s : σ)
  | removed (n : ν)

namespace Change

variable {ν σ : Type} [DecidableEq ν]

/-- The map after some changes, the last one first. -/
def map : List (Change ν σ) → ν → Option σ
  | [], _ => none
  | added n s :: changes, x => if x = n then some s else map changes x
  | removed n :: changes, x => if x = n then none else map changes x

/-- `n` is in each of the maps. -/
def Stays (visited : List (List (Change ν σ))) (n : ν) : Prop :=
  ∀ changes ∈ visited, map changes n ≠ none

/-- Its keys. -/
def keys : List (Change ν σ) → Finset ν
  | [] => ∅
  | added n _ :: changes => insert n (keys changes)
  | removed n :: changes => (keys changes).erase n

/-- The largest number of keys that there ever were at once. -/
def peak : List (Change ν σ) → Nat
  | [] => 0
  | change :: changes => max (keys (change :: changes)).card (peak changes)

theorem mem_keys {n : ν} (changes : List (Change ν σ)) :
    n ∈ keys changes ↔ map changes n ≠ none := by
  induction changes with
  | nil => simp [keys, map]
  | cons change changes ih =>
    cases change with
    | added m s =>
      rw [keys, map, Finset.mem_insert, ih]
      split <;> simp_all
    | removed m =>
      rw [keys, map, Finset.mem_erase, ih]
      split <;> simp_all

theorem card_keys_le_peak (changes : List (Change ν σ)) : (keys changes).card ≤ peak changes := by
  cases changes with
  | nil => exact le_rfl
  | cons change changes => exact le_max_left _ _

theorem peak_removed (n : ν) (changes : List (Change ν σ)) :
    peak (.removed n :: changes) = peak changes :=
  max_eq_right ((Finset.card_le_card (Finset.erase_subset _ _)).trans (card_keys_le_peak _))

end Change

/-- Slots; those from `count` on do not exist yet. -/
@[ext]
structure Slots (ν σ : Type) where
  slot : Nat → Option (ν × σ)
  count : Nat
  beyond : ∀ j, count ≤ j → slot j = none

namespace Slots

variable {ν σ : Type} {t : Slots ν σ} {j k : Nat} {n m : ν} {s : σ}

/-- `t` with the key `n` in slot `j`. -/
def put (t : Slots ν σ) (j : Nat) (n : ν) (s : σ) : Slots ν σ where
  slot := update t.slot j (some (n, s))
  count := max t.count (j + 1)
  beyond k hk := by
    rw [update_of_ne (by omega)]
    exact t.beyond k (by omega)

/-- `t` with slot `j` free. -/
def clear (t : Slots ν σ) (j : Nat) : Slots ν σ where
  slot := update t.slot j none
  count := t.count
  beyond k hk := by
    rw [update_apply]
    split
    · rfl
    · exact t.beyond k hk

theorem slot_put : (t.put j n s).slot k = if k = j then some (n, s) else t.slot k :=
  update_apply ..

theorem slot_clear : (t.clear j).slot k = if k = j then none else t.slot k :=
  update_apply ..

theorem lt_count (t : Slots ν σ) (h : t.slot j = some (n, s)) : j < t.count := by
  by_contra hj
  exact nomatch (t.beyond j (Nat.not_lt.mp hj)).symm.trans h

/-- The slots in use. -/
def used (t : Slots ν σ) : Finset Nat := {j ∈ Finset.range t.count | (t.slot j).isSome}

theorem mem_used : j ∈ t.used ↔ t.slot j ≠ none := by
  rw [used, Finset.mem_filter, Finset.mem_range, ← Option.isSome_iff_ne_none]
  refine and_iff_right_of_imp fun h => ?_
  obtain ⟨_, h⟩ := Option.isSome_iff_exists.mp h
  exact t.lt_count h

theorem used_put : (t.put j n s).used = insert j t.used := by
  ext k
  rw [mem_used, slot_put, Finset.mem_insert, mem_used]
  split <;> simp_all

theorem used_clear : (t.clear j).used = t.used.erase j := by
  ext k
  rw [mem_used, slot_clear, Finset.mem_erase, mem_used]
  split <;> simp_all

/-- The first slot that is free, or the one after the last. -/
structure FirstFree (t : Slots ν σ) (j : Nat) : Prop where
  free : t.slot j = none
  le : j ≤ t.count
  before : ∀ k < j, t.slot k ≠ none

/-- If the first free slot is a new one, all are in use. -/
theorem FirstFree.full (h : t.FirstFree t.count) : t.used.card = t.count := by
  have hall : t.used = Finset.range t.count := by
    ext k
    rw [mem_used, Finset.mem_range]
    refine ⟨fun hk => ?_, h.before k⟩
    by_contra hlt
    exact hk (t.beyond k (by omega))
  rw [hall, Finset.card_range]

theorem FirstFree.card_lt (h : t.FirstFree j) (hj : j < t.count) : t.used.card < t.count := by
  have hss : t.used ⊂ Finset.range t.count := by
    refine Finset.ssubset_iff_subset_ne.mpr ⟨Finset.filter_subset _ _, fun he => ?_⟩
    have := mem_used.mp (he ▸ Finset.mem_range.mpr hj)
    exact this h.free
  simpa using Finset.card_lt_card hss

/-- From `pos` on, the first key and the position after it, or no key. -/
inductive Next (t : Slots ν σ) (pos : Nat) : Option ν → Nat → Prop where
  | found {j : Nat} {n : ν} {s : σ} (hle : pos ≤ j) (hj : t.slot j = some (n, s))
      (hfree : ∀ k, pos ≤ k → k < j → t.slot k = none) : Next t pos (some n) (j + 1)
  | finished {pos' : Nat} (hfree : ∀ k, pos ≤ k → t.slot k = none) : Next t pos none pos'

theorem Next.skip {r : Option ν} (hj : t.slot j = none) (h : t.Next (j + 1) r k) :
    t.Next j r k := by
  have hfirst : ∀ {l}, j ≤ l → (j + 1 ≤ l → t.slot l = none) → t.slot l = none := by
    intro l hl hrest
    rcases hl.eq_or_lt with rfl | hlt
    · exact hj
    · exact hrest hlt
  cases h with
  | found hle hi hfree => exact .found (by omega) hi fun l hl hlt => hfirst hl (hfree l · hlt)
  | finished hfree => exact .finished fun l hl => hfirst hl (hfree l)

/-! ### Slots that hold a map -/

variable [DecidableEq ν] {changes : List (Change ν σ)}

/-- The slots hold the map that the changes make. -/
structure Holds (t : Slots ν σ) (changes : List (Change ν σ)) : Prop where
  unique : ∀ {j k n s s'}, t.slot j = some (n, s) → t.slot k = some (n, s') → j = k
  map : ∀ n s, (∃ j, t.slot j = some (n, s)) ↔ Change.map changes n = some s
  card : t.used.card = (Change.keys changes).card

namespace Holds

theorem nil (h : ∀ j, t.slot j = none) : t.Holds [] := by
  refine ⟨fun hj => ?_, fun n s => ⟨?_, nofun⟩, ?_⟩
  · exact nomatch (h _).symm.trans hj
  · rintro ⟨j, hj⟩
    exact nomatch (h j).symm.trans hj
  · have hempty : t.used = ∅ := Finset.eq_empty_of_forall_notMem fun j hj => mem_used.mp hj (h j)
    rw [hempty]
    rfl

theorem ne_of_absent (h : t.Holds changes) (hn : Change.map changes n = none) :
    t.slot j ≠ some (n, s) := fun hj =>
  nomatch hn.symm.trans ((h.map n s).mp ⟨j, hj⟩)

/-- A new key, in a free slot. -/
theorem put (h : t.Holds changes) (hj : t.slot j = none) (hn : Change.map changes n = none) :
    (t.put j n s).Holds (.added n s :: changes) := by
  refine ⟨fun {k l m r r'} hk hl => ?_, fun m r => ?_, ?_⟩
  · rw [slot_put] at hk hl
    split at hk <;> split at hl
    · omega
    · cases hk
      exact absurd hl (h.ne_of_absent hn)
    · cases hl
      exact absurd hk (h.ne_of_absent hn)
    · exact h.unique hk hl
  · rw [Change.map]
    by_cases hm : m = n
    · subst hm
      rw [if_pos rfl]
      constructor
      · rintro ⟨k, hk⟩
        rw [slot_put] at hk
        split at hk
        · cases hk
          rfl
        · exact absurd hk (h.ne_of_absent hn)
      · rintro ⟨⟩
        exact ⟨j, by rw [slot_put, if_pos rfl]⟩
    · rw [if_neg hm, ← h.map]
      constructor
      · rintro ⟨k, hk⟩
        rw [slot_put] at hk
        split at hk
        · cases hk
          exact absurd rfl hm
        · exact ⟨k, hk⟩
      · rintro ⟨k, hk⟩
        refine ⟨k, ?_⟩
        rw [slot_put, if_neg, hk]
        rintro rfl
        exact nomatch hj.symm.trans hk
  · have hnew : j ∉ t.used := fun hmem => mem_used.mp hmem hj
    have hkey : n ∉ Change.keys changes := fun hmem => (Change.mem_keys _).mp hmem hn
    rw [used_put, Change.keys, Finset.card_insert_of_notMem hnew,
      Finset.card_insert_of_notMem hkey, h.card]

/-- The slot of a key, freed. -/
theorem clear (h : t.Holds changes) (hj : t.slot j = some (n, s)) :
    (t.clear j).Holds (.removed n :: changes) := by
  refine ⟨fun {k l m r r'} hk hl => ?_, fun m r => ?_, ?_⟩
  · rw [slot_clear] at hk hl
    split at hk
    · cases hk
    · split at hl
      · cases hl
      · exact h.unique hk hl
  · rw [Change.map]
    by_cases hm : m = n
    · subst hm
      rw [if_pos rfl]
      refine ⟨?_, nofun⟩
      rintro ⟨k, hk⟩
      rw [slot_clear] at hk
      split at hk
      · cases hk
      · exact absurd (h.unique hk hj) ‹_›
    · rw [if_neg hm, ← h.map]
      constructor
      · rintro ⟨k, hk⟩
        rw [slot_clear] at hk
        split at hk
        · cases hk
        · exact ⟨k, hk⟩
      · rintro ⟨k, hk⟩
        refine ⟨k, ?_⟩
        rw [slot_clear, if_neg, hk]
        rintro rfl
        cases hj.symm.trans hk
        exact hm rfl
  · have hmem : j ∈ t.used := mem_used.mpr (by rw [hj]; exact Option.some_ne_none _)
    have hkey : n ∈ Change.keys changes :=
      (Change.mem_keys _).mpr (by rw [(h.map n s).mp ⟨j, hj⟩]; exact Option.some_ne_none _)
    rw [used_clear, Change.keys, Finset.card_erase_of_mem hmem, Finset.card_erase_of_mem hkey,
      h.card]

end Holds

/-! ### Changes of the slots -/

/-- A change: nothing, a new key in the first free slot, or a key that goes. -/
inductive Step : Slots ν σ → List (Change ν σ) → Slots ν σ → List (Change ν σ) → Prop where
  | same {t : Slots ν σ} {changes : List (Change ν σ)} : Step t changes t changes
  | put {t : Slots ν σ} {changes : List (Change ν σ)} {j : Nat} {n : ν} {s : σ}
      (hj : t.FirstFree j) (hn : Change.map changes n = none) :
      Step t changes (t.put j n s) (.added n s :: changes)
  | clear {t : Slots ν σ} {changes : List (Change ν σ)} {j : Nat} {n : ν} {s : σ}
      (hj : t.slot j = some (n, s)) : Step t changes (t.clear j) (.removed n :: changes)

namespace Step

variable {t' : Slots ν σ} {changes' : List (Change ν σ)}

theorem holds (h : Step t changes t' changes') (ht : t.Holds changes) : t'.Holds changes' := by
  cases h with
  | same => exact ht
  | put hj hn => exact ht.put hj.free hn
  | clear hj => exact ht.clear hj

theorem peak_le (h : Step t changes t' changes') : Change.peak changes ≤ Change.peak changes' := by
  cases h with
  | same => exact le_rfl
  | put => exact le_max_right _ _
  | clear => exact (Change.peak_removed _ _).ge

/-- **Free slots come first.**  There are as many slots as there were ever keys at once, or as many
as there were at the start. -/
theorem count (h : Step t changes t' changes') (ht : t.Holds changes) {start : Nat}
    (hcount : t.count = max start (Change.peak changes)) :
    t'.count = max start (Change.peak changes') := by
  cases h with
  | same => exact hcount
  | @put j n s hj hn =>
    have hkey : n ∉ Change.keys changes := fun hmem => (Change.mem_keys _).mp hmem hn
    have hcard : (Change.keys (.added n s :: changes)).card = t.used.card + 1 := by
      rw [Change.keys, Finset.card_insert_of_notMem hkey, ht.card]
    rw [Change.peak, hcard]
    show max t.count (j + 1) = _
    rcases hj.le.lt_or_eq with hlt | rfl
    · have := hj.card_lt hlt
      omega
    · have := hj.full
      omega
  | clear =>
    rw [Change.peak_removed]
    exact hcount

/-- The slot of a key that stays does not change. -/
theorem slot_eq (h : Step t changes t' changes') (hj : t.slot j = some (n, s))
    (hn : Change.map changes' n ≠ none) : t'.slot j = some (n, s) := by
  cases h with
  | same => exact hj
  | put hfree =>
    rw [slot_put, if_neg, hj]
    rintro rfl
    exact nomatch hfree.free.symm.trans hj
  | @clear i m r hi =>
    have hm : n ≠ m := by
      rintro rfl
      exact hn (if_pos rfl)
    rw [slot_clear, if_neg, hj]
    rintro rfl
    cases hi.symm.trans hj
    exact hm rfl

end Step

/-! ### Scans -/

/-- A scan from the first slot on, with changes between its steps: the maps that there were, the
keys that it has passed, and where it is. -/
inductive Scan :
    List (List (Change ν σ)) → List ν → Nat → Slots ν σ → List (Change ν σ) → Prop where
  | start {t : Slots ν σ} {changes : List (Change ν σ)} (h : t.Holds changes) :
      Scan [changes] [] 0 t changes
  | next {visited : List (List (Change ν σ))} {passed : List ν} {pos pos' : Nat} {t : Slots ν σ}
      {changes : List (Change ν σ)} {n : ν} (scan : Scan visited passed pos t changes)
      (h : t.Next pos (some n) pos') : Scan visited (n :: passed) pos' t changes
  | step {visited : List (List (Change ν σ))} {passed : List ν} {pos : Nat} {t t' : Slots ν σ}
      {changes changes' : List (Change ν σ)} (scan : Scan visited passed pos t changes)
      (h : Step t changes t' changes') : Scan (changes' :: visited) passed pos t' changes'

namespace Scan

variable {visited : List (List (Change ν σ))} {passed : List ν} {pos pos' : Nat}

theorem holds (scan : Scan visited passed pos t changes) : t.Holds changes ∧ changes ∈ visited := by
  induction scan with
  | start h => exact ⟨h, List.mem_singleton_self _⟩
  | next _ _ ih => exact ih
  | step _ h ih => exact ⟨h.holds ih.1, List.mem_cons_self⟩

/-- A key that has been there all the time has been passed once if its slot has, and not yet
otherwise. -/
theorem stable (scan : Scan visited passed pos t changes) (hn : Change.Stays visited n) :
    ∃ j s, t.slot j = some (n, s) ∧ passed.count n = if j < pos then 1 else 0 := by
  induction scan with
  | @start t changes h =>
    obtain ⟨s, hs⟩ := Option.ne_none_iff_exists'.mp (hn changes (List.mem_singleton_self _))
    obtain ⟨j, hj⟩ := (h.map n s).mpr hs
    exact ⟨j, s, hj, rfl⟩
  | @next _ passed pos pos' t _ m scan h ih =>
    obtain ⟨j, s, hj, hcount⟩ := ih hn
    refine ⟨j, s, hj, ?_⟩
    rw [List.count_cons, hcount]
    cases h with
    | @found i _ r hle hi hfree =>
      by_cases hm : m = n
      · -- the key passed is this one, and so is its slot
        subst hm
        obtain rfl : i = j := scan.holds.1.unique hi hj
        simp [Nat.not_lt.mpr hle]
      · have hij : i ≠ j := by
          rintro rfl
          cases hi.symm.trans hj
          exact hm rfl
        have hbetween : ¬ (pos ≤ j ∧ j < i) := fun hb =>
          nomatch (hfree j hb.1 hb.2).symm.trans hj
        have hsplit : j < i + 1 ↔ j < pos := by omega
        simp [hm, hsplit]
  | @step _ passed pos t t' changes changes' scan h ih =>
    obtain ⟨j, s, hj, hcount⟩ := ih fun c hc => hn c (List.mem_cons_of_mem _ hc)
    exact ⟨j, s, h.slot_eq hj (hn _ List.mem_cons_self), hcount⟩

theorem passed_visited (scan : Scan visited passed pos t changes) (hn : n ∈ passed) :
    ∃ changes ∈ visited, Change.map changes n ≠ none := by
  induction scan with
  | start => cases hn
  | @next _ _ _ _ t changes m scan h ih =>
    rcases List.mem_cons.mp hn with rfl | hn
    · cases h with
      | found hle hj hfree =>
        refine ⟨changes, scan.holds.2, ?_⟩
        rw [(scan.holds.1.map _ _).mp ⟨_, hj⟩]
        exact Option.some_ne_none _
    · exact ih hn
  | step _ _ ih =>
    obtain ⟨c, hc, hmap⟩ := ih hn
    exact ⟨c, List.mem_cons_of_mem _ hc, hmap⟩

theorem count_le (scan : Scan visited passed pos t changes) (hn : Change.Stays visited n) :
    passed.count n ≤ 1 := by
  obtain ⟨j, s, -, hcount⟩ := scan.stable hn
  rw [hcount]
  split <;> omega

/-- **A scan is exact** on what does not change under it. -/
theorem exact (scan : Scan visited passed pos t changes) (hend : t.Next pos none pos') (n : ν)
    (hn : Change.Stays visited n) : passed.count n = 1 := by
  obtain ⟨j, s, hj, hcount⟩ := scan.stable hn
  cases hend with
  | finished hfree =>
    have hlt : j < pos := by
      by_contra hle
      exact nomatch (hfree j (by omega)).symm.trans hj
    rw [hcount, if_pos hlt]

end Scan

end Slots

end Support
