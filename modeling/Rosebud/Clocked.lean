import Mathlib.Data.List.Basic

/-! # Runs of clocked machines

A synchronous circuit is a step function: from the registers before a clock edge
and what its wires carried in that cycle, the registers after the edge.  A run is
the fold of that function over the cycles, and every safety theorem of the
development is an invariant of such a fold.

Two things are packaged here once.  `run_invariant` is the induction over the
cycles.  `Meets` says that every cycle of a run satisfies a condition **in the
state the run has there**, so that a theorem can be stated for the runs that
avoid one particular branch of a circuit.

`bus`/`rest` is the sending side of a valid/ready channel: a list of items still
to be sent, presented one at a time in the cycles the sender chooses.  `append_handover`
joins the conservation laws of two queues in a row.
-/
namespace Clocked

section Run
variable {S I : Type} (step : S → I → S)

/-- The state after a list of cycles. -/
def run (s : S) (cycles : List I) : S := cycles.foldl step s

@[simp] theorem run_nil (s : S) : run step s [] = s := rfl

@[simp] theorem run_cons (s : S) (i : I) (is : List I) :
    run step s (i :: is) = run step (step s i) is := rfl

theorem run_append (s : S) (is js : List I) :
    run step s (is ++ js) = run step (run step s is) js := by
  simp [run, List.foldl_append]

/-- Every cycle of the run from `s` meets `C` in the state reached there. -/
def Meets (C : S → I → Prop) : S → List I → Prop
  | _, [] => True
  | s, i :: is => C s i ∧ Meets C (step s i) is

@[simp] theorem meets_nil (C : S → I → Prop) (s : S) : Meets step C s [] := trivial

@[simp] theorem meets_cons (C : S → I → Prop) (s : S) (i : I) (is : List I) :
    Meets step C s (i :: is) ↔ C s i ∧ Meets step C (step s i) is := Iff.rfl

instance decidableMeets (C : S → I → Prop) [∀ s i, Decidable (C s i)] :
    ∀ (s : S) (is : List I), Decidable (Meets step C s is)
  | _, [] => .isTrue trivial
  | s, i :: is =>
    have := decidableMeets C (step s i) is
    inferInstanceAs (Decidable (C s i ∧ Meets step C (step s i) is))

/-- How many cycles of the run from `s` meet `D` in the state reached there. -/
def tally (D : S → I → Prop) [∀ s i, Decidable (D s i)] : S → List I → Nat
  | _, [] => 0
  | s, i :: is => (if D s i then 1 else 0) + tally D (step s i) is

/-- A condition that is always met. -/
theorem meets_true (s : S) (is : List I) : Meets step (fun _ _ => True) s is := by
  induction is generalizing s with
  | nil => trivial
  | cons i is ih => exact ⟨trivial, ih (step s i)⟩

variable {step} {s : S} {is : List I} {C D : S → I → Prop}

/-- A condition on the inputs alone. -/
theorem meets_of_mem {C : I → Prop} (h : ∀ i ∈ is, C i) (s : S) :
    Meets step (fun _ i => C i) s is := by
  induction is generalizing s with
  | nil => trivial
  | cons i is ih =>
    exact ⟨h i List.mem_cons_self, ih (fun j hj => h j (List.mem_cons_of_mem i hj)) (step s i)⟩

/-- A run meets a condition if both its parts do, each in the states it reaches. -/
theorem meets_append {js : List I} :
    Meets step C s (is ++ js) ↔ Meets step C s is ∧ Meets step C (run step s is) js := by
  induction is generalizing s with
  | nil => simp
  | cons i is ih => simp [ih, and_assoc]

theorem Meets.imp (h : ∀ s i, C s i → D s i) (hc : Meets step C s is) : Meets step D s is := by
  induction is generalizing s with
  | nil => trivial
  | cons i is ih => exact ⟨h s i hc.1, ih hc.2⟩

theorem Meets.and (hc : Meets step C s is) (hd : Meets step D s is) :
    Meets step (fun s i => C s i ∧ D s i) s is := by
  induction is generalizing s with
  | nil => trivial
  | cons i is ih => exact ⟨⟨hc.1, hd.1⟩, ih hc.2 hd.2⟩

/-- **The invariant rule.**  A property that one cycle preserves, whenever the
cycle meets `C`, holds at the end of every run that meets `C`. -/
theorem run_invariant {P : S → Prop} (hstep : ∀ s i, P s → C s i → P (step s i)) (hs : P s)
    (hc : Meets step C s is) : P (run step s is) := by
  induction is generalizing s with
  | nil => exact hs
  | cons i is ih => exact ih (hstep s i hs hc.1) hc.2

/-- The invariant rule for a property that every cycle preserves. -/
theorem run_preserves {P : S → Prop} (hstep : ∀ s i, P s → P (step s i)) (hs : P s)
    (is : List I) : P (run step s is) := by
  induction is generalizing s with
  | nil => exact hs
  | cons i is ih => exact ih (hstep s i hs)

/-- **The simulation rule.**  If a cycle of one machine is matched by a cycle of another, runs
of the first are matched by runs of the second. -/
theorem run_related {T J : Type} {step' : T → J → T} {R : S → T → Prop} (f : I → J)
    (hstep : ∀ s t i, R s t → R (step s i) (step' t (f i))) {t : T} (hst : R s t)
    (is : List I) : R (run step s is) (run step' t (is.map f)) := by
  induction is generalizing s t with
  | nil => exact hst
  | cons i is ih => exact ih (hstep s t i hst)

/-- **The delivery rule.**  `Owes s owed` says that a machine in state `s` still has
to hand out `owed`.  If every cycle appends to the log what it takes off the front
of that list, the log of a run followed by what is then owed never changes. -/
theorem run_delivers {α : Type} {log : S → List α} {Owes : S → List α → Prop}
    (hstep : ∀ s i owed, Owes s owed → C s i → ∃ sent owed',
      log (step s i) = log s ++ sent ∧ owed = sent ++ owed' ∧ Owes (step s i) owed')
    {owed : List α} (hs : Owes s owed) (hc : Meets step C s is) :
    ∃ owed', Owes (run step s is) owed' ∧ log (run step s is) ++ owed' = log s ++ owed := by
  induction is generalizing s owed with
  | nil => exact ⟨owed, hs, rfl⟩
  | cons i is ih =>
    obtain ⟨sent, owed₁, hlog, howed, hs₁⟩ := hstep s i owed hs hc.1
    obtain ⟨owed₂, hs₂, heq⟩ := ih hs₁ hc.2
    refine ⟨owed₂, hs₂, ?_⟩
    rw [run_cons, heq, hlog, howed, List.append_assoc]

/-- **The progress rule.**  A measure that no cycle raises, and every cycle with `D`
lowers, has been lowered as often as there were cycles with `D`. -/
theorem run_exhausts {P : S → Prop} [∀ s i, Decidable (D s i)]
    {m : S → Nat} (hinv : ∀ s i, P s → C s i → P (step s i))
    (hrank : ∀ s i, P s → C s i → m (step s i) ≤ m s - if D s i then 1 else 0)
    (hs : P s) (hc : Meets step C s is) : m (run step s is) ≤ m s - tally step D s is := by
  induction is generalizing s with
  | nil => exact Nat.le_refl _
  | cons i is ih =>
    have hfirst := hrank s i hs hc.1
    have hrest := ih (hinv s i hs hc.1) hc.2
    rw [run_cons, tally]
    omega

theorem tally_of_input (p : I → Bool) (s : S) (is : List I) :
    tally step (fun _ i => p i = true) s is = is.countP p := by
  induction is generalizing s with
  | nil => rfl
  | cons i is ih => rw [tally, ih, List.countP_cons, Nat.add_comm]

/-- **The waiting rule.**  If a state with rank `d` leads to one with a rank as much smaller
as the cycle counts for, a run has at most `d` cycles with `D`. -/
theorem tally_le {R : S → Nat → Prop} [∀ s i, Decidable (D s i)]
    (hstep : ∀ s i d, R s d → C s i → ∃ d', R (step s i) d' ∧ d' + (if D s i then 1 else 0) ≤ d)
    {d : Nat} (hs : R s d) (hc : Meets step C s is) : tally step D s is ≤ d := by
  induction is generalizing s d with
  | nil => exact Nat.zero_le _
  | cons i is ih =>
    obtain ⟨d', hs', hle⟩ := hstep s i d hs hc.1
    have hrest := ih hs' hc.2
    rw [tally]
    omega

end Run

section Source
variable {α : Type}

/-- What a sender with `pending` items puts on its channel: in a cycle it chooses
to offer, the first pending item with `valid` high; otherwise anything at all,
with `valid` low. -/
def bus (pending : List α) (offer : Bool) (idle : α) : Bool × α :=
  match offer, pending with
  | true, x :: _ => (true, x)
  | _, _ => (false, idle)

/-- The items still to be sent, once the first one was `taken` or not. -/
def rest (pending : List α) (taken : Bool) : List α :=
  if taken then pending.tail else pending

@[simp] theorem bus_false (pending : List α) (idle : α) :
    bus pending false idle = (false, idle) := rfl

@[simp] theorem bus_nil (offer : Bool) (idle : α) :
    bus [] offer idle = (false, idle) := by
  cases offer <;> rfl

@[simp] theorem bus_cons (x : α) (xs : List α) (idle : α) :
    bus (x :: xs) true idle = (true, x) := rfl

@[simp] theorem rest_false (pending : List α) : rest pending false = pending := rfl

@[simp] theorem rest_true (pending : List α) : rest pending true = pending.tail := rfl

/-- The two things a sender can do: offer nothing, or offer its first item. -/
theorem bus_cases (pending : List α) (offer : Bool) (idle : α) :
    bus pending offer idle = (false, idle) ∨
      ∃ x xs, pending = x :: xs ∧ offer = true ∧ bus pending offer idle = (true, x) := by
  cases offer with
  | false => exact .inl rfl
  | true =>
    cases pending with
    | nil => exact .inl rfl
    | cons x xs => exact .inr ⟨x, xs, rfl, rfl, rfl⟩

/-- What is offered is the first item. -/
theorem bus_of_valid {pending : List α} {offer : Bool} {idle : α}
    (h : (bus pending offer idle).1 = true) :
    ∃ xs, pending = (bus pending offer idle).2 :: xs := by
  rcases bus_cases pending offer idle with hbus | ⟨x, xs, hp, -, hbus⟩
  · rw [hbus] at h
    exact absurd h Bool.false_ne_true
  · exact ⟨xs, by rw [hbus, hp]⟩

/-- What is taken is taken off the front. -/
theorem taken_append_rest {pending : List α} {offer taken : Bool} {idle : α}
    (h : taken = true → (bus pending offer idle).1 = true) :
    pending = (if taken then [(bus pending offer idle).2] else []) ++ rest pending taken := by
  cases taken with
  | false => rfl
  | true =>
    obtain ⟨xs, hp⟩ := bus_of_valid (h rfl)
    have htail : pending.tail = xs := congrArg List.tail hp
    rw [rest_true, htail]
    exact hp

end Source

/-- Two queues in a row are one: what the second hands over is what the first takes. -/
theorem append_handover {α : Type} {a a' b b' sent passed taken : List α}
    (ha : a ++ passed = sent ++ a') (hb : b ++ taken = passed ++ b') :
    (a ++ b) ++ taken = sent ++ (a' ++ b') := by
  rw [List.append_assoc, hb, ← List.append_assoc, ha, List.append_assoc]

end Clocked
