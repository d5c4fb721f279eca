import Mathlib.Data.List.TakeWhile
import Mathlib.Tactic

/-!
# Lib — tokens of a string

`strtok_r` of `string.c`, on the bytes of a string without its null byte.  It returns the next token
and the position it saves, the rest of the string.

`strtok_r_some`: the tokens of a string are the parts between the delimiters, less the empty ones.
-/

namespace Pintos

/-- The bytes of the C string in `s`: those before the first null byte. -/
def c_string (s : List UInt8) : List UInt8 := s.takeWhile (· != 0)

/-- The string that `strlcpy (dst, src, size)` leaves in `dst`. -/
def strlcpy (src : List UInt8) (size : Nat) : List UInt8 := (c_string src).take (size - 1)

/-- `strtok_r`: the token and the rest, or nothing at the end of the string. -/
def strtok_r (s delimiters : List UInt8) : Option (List UInt8 × List UInt8) :=
  match s.dropWhile fun c => delimiters.contains c with
  | [] => none
  | c :: s => some ((c :: s).takeWhile fun c => !delimiters.contains c,
      ((c :: s).dropWhile fun c => !delimiters.contains c).drop 1)

/-- The parts of `s` between delimiters that are not empty. -/
def tokens (s delimiters : List UInt8) : List (List UInt8) :=
  (s.splitOnP fun c => delimiters.contains c).filter fun t => !t.isEmpty

theorem length_c_string_strlcpy (src : List UInt8) (size : Nat) :
    (c_string (strlcpy src size)).length ≤ size - 1 :=
  ((List.takeWhile_sublist _).length_le).trans (List.length_take_le ..)

section Tokens

variable {s delimiters t rest : List UInt8}

theorem tokens_nil : tokens [] delimiters = [] := rfl

theorem tokens_cons_delimiter {c : UInt8} (h : delimiters.contains c = true) :
    tokens (c :: s) delimiters = tokens s delimiters := by
  have hsplit := List.splitOnP_append_cons (p := fun c => delimiters.contains c) [] s h
  rw [List.nil_append] at hsplit
  rw [tokens, hsplit]
  rfl

/-- Leading delimiters make no token. -/
theorem tokens_dropWhile :
    tokens (s.dropWhile fun c => delimiters.contains c) delimiters = tokens s delimiters := by
  induction s with
  | nil => rfl
  | cons c s ih =>
    by_cases h : delimiters.contains c = true
    · rw [List.dropWhile_cons_of_pos h, ih, tokens_cons_delimiter h]
    · rw [List.dropWhile_cons_of_neg h]

/-- A part without delimiters, and what follows the delimiter after it. -/
theorem tokens_append (ht : t ≠ []) (hd : ∀ c ∈ t, delimiters.contains c = false) :
    tokens t delimiters = [t] ∧ ∀ c rest, delimiters.contains c = true →
      tokens (t ++ c :: rest) delimiters = t :: tokens rest delimiters := by
  have hone := List.splitOnP_eq_singleton (p := fun c => delimiters.contains c) hd
  have hkeep : (!t.isEmpty) = true := by simpa using ht
  refine ⟨?_, fun c rest hc => ?_⟩
  · rw [tokens, hone, List.filter_singleton, hkeep, cond_true]
  · rw [tokens, List.splitOnP_append_cons (p := fun c => delimiters.contains c) t rest hc, hone,
      List.filter_append, List.filter_singleton, hkeep, cond_true]
    rfl

theorem strtok_r_none (h : strtok_r s delimiters = none) : tokens s delimiters = [] := by
  rw [← tokens_dropWhile]
  unfold strtok_r at h
  split at h
  · rename_i hs
    rw [hs]
    exact tokens_nil
  · cases h

/-- `strtok_r` finds the first token, and the others in the rest. -/
theorem strtok_r_some (h : strtok_r s delimiters = some (t, rest)) :
    tokens s delimiters = t :: tokens rest delimiters ∧ t ≠ [] ∧ rest.length < s.length := by
  rw [← tokens_dropWhile]
  have hlen := (List.dropWhile_sublist (l := s) fun c => delimiters.contains c).length_le
  unfold strtok_r at h
  split at h
  · cases h
  · rename_i c u hs
    obtain ⟨rfl, rfl⟩ := Prod.mk.inj (Option.some.inj h)
    rw [hs] at hlen ⊢
    have hc : (!delimiters.contains c) = true := by
      have := List.head_dropWhile_not (fun c => delimiters.contains c)
        (show s.dropWhile (fun c => delimiters.contains c) ≠ [] by rw [hs]; simp)
      simp only [hs, List.head_cons] at this
      rw [this]
      rfl
    have hno : ∀ x ∈ (c :: u).takeWhile (fun c => !delimiters.contains c),
        delimiters.contains x = false := fun x hx => by simpa using List.mem_takeWhile_imp hx
    have hne : (c :: u).takeWhile (fun c => !delimiters.contains c) ≠ [] := by
      rw [List.takeWhile_cons_of_pos (p := fun c => !delimiters.contains c) hc]
      exact List.cons_ne_nil _ _
    have happ := List.takeWhile_append_dropWhile (p := fun c => !delimiters.contains c)
      (l := c :: u)
    obtain ⟨hone, hmore⟩ := tokens_append hne hno
    -- the token ends at the end of the string or at a delimiter
    cases hr : (c :: u).dropWhile fun c => !delimiters.contains c with
    | nil =>
      rw [hr, List.append_nil] at happ
      refine ⟨?_, hne, ?_⟩
      · nth_rewrite 1 [← happ]
        exact hone
      · exact lt_of_lt_of_le (Nat.succ_pos _) hlen
    | cons x r =>
      have hx : delimiters.contains x = true := by
        have := List.head_dropWhile_not (fun c => !delimiters.contains c)
          (show (c :: u).dropWhile (fun c => !delimiters.contains c) ≠ [] by rw [hr]; simp)
        simp only [hr, List.head_cons, Bool.not_eq_false'] at this
        exact this
      rw [hr] at happ
      refine ⟨?_, hne, ?_⟩
      · nth_rewrite 1 [← happ]
        exact hmore x r hx
      · have := congrArg List.length happ
        rw [List.length_append, List.length_cons] at this
        show r.length < s.length
        omega

/-- The token and the rest are parts of the string, with a delimiter between them. -/
theorem strtok_r_parts (h : strtok_r s delimiters = some (t, rest)) :
    t ⊆ s ∧ rest ⊆ s ∧ t.length ≤ s.length ∧
      (rest ≠ [] → t.length + 1 + rest.length ≤ s.length) := by
  have hdrop := List.dropWhile_suffix (l := s) fun c => delimiters.contains c
  unfold strtok_r at h
  split at h
  · cases h
  · rename_i c u hs
    obtain ⟨rfl, rfl⟩ := Prod.mk.inj (Option.some.inj h)
    rw [hs] at hdrop
    have happ := List.takeWhile_append_dropWhile (p := fun c => !delimiters.contains c)
      (l := c :: u)
    have hlen := congrArg List.length happ
    rw [List.length_append] at hlen
    have hle := hdrop.length_le
    refine ⟨?_, ?_, by omega, fun hne => ?_⟩
    · exact fun x hx => hdrop.subset ((List.takeWhile_prefix _).subset hx)
    · exact fun x hx => hdrop.subset ((List.dropWhile_suffix _).subset (List.mem_of_mem_drop hx))
    · rw [List.length_drop]
      have hpos := List.length_pos_of_ne_nil hne
      rw [List.length_drop] at hpos
      omega

/-- Tokens are made of the characters of the string. -/
theorem mem_of_mem_tokens : ∀ {s : List UInt8}, t ∈ tokens s delimiters → t ⊆ s := by
  intro s
  induction hn : s.length using Nat.strong_induction_on generalizing s with
  | _ n ih =>
    intro ht
    cases hr : strtok_r s delimiters with
    | none =>
      rw [strtok_r_none hr] at ht
      exact absurd ht List.not_mem_nil
    | some r =>
      obtain ⟨first, rest⟩ := r
      obtain ⟨htokens, -, hlt⟩ := strtok_r_some hr
      obtain ⟨hfirst, hrest, -⟩ := strtok_r_parts hr
      rw [htokens] at ht
      rcases List.mem_cons.mp ht with rfl | ht
      · exact hfirst
      · exact fun x hx => hrest (ih rest.length (hn ▸ hlt) rfl ht hx)

/-- The tokens with a terminator each are at most one byte longer than the string. -/
theorem sum_tokens_le : ∀ {s : List UInt8},
    ((tokens s delimiters).map fun t => t.length + 1).sum ≤ s.length + 1 := by
  intro s
  induction hn : s.length using Nat.strong_induction_on generalizing s with
  | _ n ih =>
    cases hr : strtok_r s delimiters with
    | none =>
      rw [strtok_r_none hr]
      exact Nat.zero_le _
    | some r =>
      obtain ⟨first, rest⟩ := r
      obtain ⟨htokens, -, hlt⟩ := strtok_r_some hr
      obtain ⟨-, -, hle, hmore⟩ := strtok_r_parts hr
      rw [htokens, List.map_cons, List.sum_cons]
      by_cases hrest : rest = []
      · rw [hrest, tokens_nil, List.map_nil, List.sum_nil]
        omega
      · have := ih rest.length (hn ▸ hlt) rfl
        have := hmore hrest
        omega

end Tokens

end Pintos
