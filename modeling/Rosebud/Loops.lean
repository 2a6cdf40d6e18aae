import Mathlib.Data.Nat.Count

/-! # Counting loops

`forLt n body s` is the loop `for (i = 0; i < n; i = i + 1)` with the state `s` before it, and
`forDown n body s` the loop `for (i = n - 1; i >= 0; i = i - 1)`.  `forLt_invariant` is the loop
rule: what holds before the loop, and is carried by each pass from the index of that pass to the
next, holds after it with the index `n`.

A loop downwards with a guarded assignment leaves the value of the lowest index that passes the
guard (`forDown_first`), and a guarded increment counts the indices that pass it, as far as the
counter is wide enough (`forDown_count`).
-/
namespace Loops
variable {S : Type}

def forLt (n : Nat) (body : S → Nat → S) (s : S) : S := (List.range n).foldl body s

def forDown (n : Nat) (body : S → Nat → S) (s : S) : S :=
  (List.range n).foldr (fun i s => body s i) s

@[simp] theorem forDown_zero (body : S → Nat → S) (s : S) : forDown 0 body s = s := rfl

theorem forLt_succ (n : Nat) (body : S → Nat → S) (s : S) :
    forLt (n + 1) body s = body (forLt n body s) n := by
  rw [forLt, List.range_succ, List.foldl_append]
  rfl

theorem forDown_succ (n : Nat) (body : S → Nat → S) (s : S) :
    forDown (n + 1) body s = forDown n body (body s n) := by
  rw [forDown, List.range_succ, List.foldr_append]
  rfl

/-- **The loop rule.** -/
theorem forLt_invariant {P : Nat → S → Prop} {body : S → Nat → S} {n : Nat} {s : S}
    (hs : P 0 s) (hbody : ∀ k s, k < n → P k s → P (k + 1) (body s k)) :
    P n (forLt n body s) := by
  induction n with
  | zero => exact hs
  | succ n ih =>
    rw [forLt_succ]
    exact hbody n _ (Nat.lt_succ_self n) (ih fun k s hk => hbody k s (Nat.lt_succ_of_lt hk))

theorem forLt_add (m n : Nat) (body : S → Nat → S) (s : S) :
    forLt (m + n) body s = forLt n (fun s i => body s (m + i)) (forLt m body s) := by
  induction n with
  | zero => rfl
  | succ n ih => rw [← Nat.add_assoc, forLt_succ, ih, forLt_succ]

/-- Two nested loops are one. -/
theorem forLt_mul (m n : Nat) (body : S → Nat → S) (s : S) :
    forLt (m * n) body s = forLt m (fun s i => forLt n (fun s j => body s (i * n + j)) s) s := by
  induction m with
  | zero => rw [Nat.zero_mul]; rfl
  | succ m ih => rw [Nat.succ_mul, forLt_add, ih, forLt_succ]

theorem forLt_congr {n : Nat} {body body' : S → Nat → S} (h : ∀ s, ∀ i < n, body s i = body' s i)
    (s : S) : forLt n body s = forLt n body' s := by
  induction n with
  | zero => rfl
  | succ n ih =>
    rw [forLt_succ, forLt_succ, h _ n (Nat.lt_succ_self n),
      ih fun s i hi => h s i (Nat.lt_succ_of_lt hi)]

variable {body : S → Nat → S} (guard : Nat → Bool)

/-- Of a guarded assignment the lowest index remains. -/
theorem forDown_find {β : Type} (field : S → β) (value : Nat → β)
    (hbody : ∀ s k, field (body s k) = if guard k then value k else field s) (n : Nat) (s : S) :
    field (forDown n body s) = ((List.range n).find? guard).elim (field s) value := by
  induction n generalizing s with
  | zero => rfl
  | succ n ih =>
    rw [forDown_succ, ih, hbody, List.range_succ, List.find?_append]
    cases (List.range n).find? guard with
    | some k => rfl
    | none => cases hg : guard n <;> simp [hg]

/-- The same for a field that starts with the value of the index zero. -/
theorem forDown_first {β : Type} (field : S → β) (value : Nat → β)
    (hbody : ∀ s k, field (body s k) = if guard k then value k else field s) (n : Nat) {s : S}
    (hs : field s = value 0) :
    field (forDown n body s) = value (((List.range n).find? guard).getD 0) := by
  rw [forDown_find guard field value hbody, hs]
  cases (List.range n).find? guard <;> rfl

/-- A guarded increment counts, up to the width of the counter. -/
theorem forDown_count {w : Nat} (field : S → BitVec w)
    (hbody : ∀ s k, field (body s k) = if guard k then field s + 1 else field s)
    (n : Nat) (s : S) :
    field (forDown n body s) = field s + BitVec.ofNat w (Nat.count (guard · = true) n) := by
  induction n generalizing s with
  | zero => simp
  | succ n ih =>
    rw [forDown_succ, ih, hbody, Nat.count_succ]
    split
    · rw [BitVec.ofNat_add, BitVec.add_assoc, BitVec.add_comm (BitVec.ofNat w _)]
      rfl
    · rw [Nat.add_zero]

end Loops
