import Mathlib.Data.List.Basic

/-! # Ledgers of numbered resources

What happens to a pool of resources numbered from 1, written down in order: one is
taken, one is given back, or the pool starts again with the resources up to some
number.  `held` reads from the ledger what is out.

A ledger is `Sound` if nothing was taken while it was out.  That is a property of
each entry when it is written (`Sound.snoc`); of the whole ledger it says that
between two entries that take the same resource there is one that frees it
(`Sound.freed_between`).
-/
namespace Ledger

inductive Event where
  | take (s : Nat)
  | giveBack (s : Nat)
  | restart (k : Nat)
deriving DecidableEq

/-- Whether the entry makes `s` available again. -/
def Event.frees (s : Nat) : Event → Bool
  | take _ => false
  | giveBack t => decide (t = s)
  | restart k => decide (s ≤ k)

/-- Whether `s` is out after one more entry. -/
def heldAfter (s : Nat) (out : Bool) (e : Event) : Bool :=
  (out || decide (e = .take s)) && !e.frees s

/-- Whether `s` is out. -/
def held (log : List Event) (s : Nat) : Bool := log.foldl (heldAfter s) false

@[simp] theorem held_nil (s : Nat) : held [] s = false := rfl

theorem held_snoc (log : List Event) (e : Event) (s : Nat) :
    held (log ++ [e]) s = heldAfter s (held log s) e := by
  simp [held]

@[simp] theorem held_take (log : List Event) (t s : Nat) :
    held (log ++ [.take t]) s = (held log s || decide (t = s)) := by
  simp [held_snoc, heldAfter, Event.frees]

@[simp] theorem held_giveBack (log : List Event) (t s : Nat) :
    held (log ++ [.giveBack t]) s = (held log s && !decide (t = s)) := by
  simp [held_snoc, heldAfter, Event.frees]

@[simp] theorem held_restart (log : List Event) (k s : Nat) :
    held (log ++ [.restart k]) s = (held log s && !decide (s ≤ k)) := by
  simp [held_snoc, heldAfter, Event.frees]

/-- What is out stays out until an entry frees it. -/
theorem held_append_of_held {log : List Event} {s : Nat} (h : held log s = true)
    (later : List Event) (hkeep : ∀ e ∈ later, e.frees s = false) :
    held (log ++ later) s = true := by
  induction later generalizing log with
  | nil => rwa [List.append_nil]
  | cons e later ih =>
    rw [← List.singleton_append, ← List.append_assoc]
    refine ih ?_ (fun e' he' => hkeep e' (List.mem_cons_of_mem e he'))
    have hne := hkeep e List.mem_cons_self
    simp [held_snoc, heldAfter, h, hne]

/-- Nothing was taken while it was out. -/
def Sound (log : List Event) : Prop :=
  ∀ earlier s later, log = earlier ++ .take s :: later → held earlier s = false

theorem sound_nil : Sound [] := by
  intro earlier s later h
  simp at h

/-- One more entry, judged by the ledger it is added to. -/
theorem Sound.snoc {log : List Event} (h : Sound log) {e : Event}
    (he : ∀ s, e = .take s → held log s = false) : Sound (log ++ [e]) := by
  intro earlier s later heq
  rcases List.eq_nil_or_concat later with rfl | ⟨init, last, rfl⟩
  · obtain ⟨rfl, hlast⟩ := List.append_inj' heq rfl
    exact he s (List.cons.inj hlast).1
  · rw [List.concat_eq_append, ← List.cons_append, ← List.append_assoc] at heq
    exact h earlier s init (List.append_inj' heq rfl).1

/-- **Between two entries that take a resource there is one that frees it.** -/
theorem Sound.freed_between {log : List Event} (h : Sound log) {s : Nat}
    {before between after : List Event}
    (heq : log = before ++ .take s :: (between ++ .take s :: after)) :
    ∃ e ∈ between, e.frees s = true := by
  by_contra hno
  have hkeep : ∀ e ∈ between, e.frees s = false := fun e he =>
    Bool.not_eq_true _ ▸ fun hf => hno ⟨e, he, hf⟩
  have hout : held (before ++ [.take s] ++ between) s = true :=
    held_append_of_held (by simp) between hkeep
  have hin := h (before ++ [.take s] ++ between) s after (by simp [heq])
  rw [hout] at hin
  exact Bool.false_ne_true hin.symm

end Ledger
