import Rosebud.BasicFifo
import Rosebud.BoundedQueue
import Rosebud.Clocked
import Rosebud.PipeRegister
import Rosebud.Selectors

/-! # The queues of the design against an abstract queue

`basic_fifo` simulates a `BoundedQueue` of `2 ^ $clog2(DEPTH)` items (`Shows` is what is seen of
it at its ports, `refines_queue` the run).  Both its flags low is the cycle after a flush.

`pipe_register` keeps the words in order in each of its types.  The single register of `TYPE` 1,
though, leaves the reset with `empty` and `full` both low, and neither branch of its process is
taken from there: it never takes a word (`accepted_of_single`).
-/
namespace Rosebud
open Clocked

/-! ## `basic_fifo` -/

namespace BasicFifo
variable {aw : Nat} {α : Type}

def itemCount (s : BasicFifo aw α) : BitVec (aw + 1) := s.itemCountR

def full (s : BasicFifo aw α) : Bool := !s.nFull

def empty (s : BasicFifo aw α) : Bool := !s.nEmpty

/-- What a cycle is to a queue. -/
def Inputs.toQueue (i : Inputs α) : BoundedQueue.Inputs α where
  flush := i.rst || i.clear
  offer := if i.dinValid then some i.din else none
  take := i.doutReady

/-- The ports of the module are those of the queue. -/
structure Shows (s : BasicFifo aw α) (q : BoundedQueue α) : Prop where
  doutValid : s.doutValid = q.offers
  dout : ∀ x ∈ q.items.head?, s.dout = x
  dinReady : s.dinReady = q.accepts (2 ^ aw)
  itemCount : s.itemCount.toNat = q.items.length
  empty : s.empty = q.items.isEmpty
  full : s.full = !q.accepts (2 ^ aw)

/-- The registers stand for the queue. -/
structure Stands (s : BasicFifo aw α) (q : BoundedQueue α) : Prop where
  valid : s.Valid
  contents : s.contents = q.items
  dinReady : s.dinReady = q.accepts (2 ^ aw)

variable {s : BasicFifo aw α} {q : BoundedQueue α}

theorem Stands.shows (h : s.Stands q) : s.Shows q where
  doutValid := by
    rw [h.valid.doutValid_eq, h.contents]
    rfl
  dout x hx := by
    rw [← h.contents] at hx
    cases hc : s.contents with
    | nil =>
      rw [hc] at hx
      exact absurd hx (Option.not_mem_none x)
    | cons y ys =>
      rw [hc] at hx
      rw [dout_eq hc]
      exact Option.some.inj hx
  dinReady := h.dinReady
  itemCount := by
    rw [← h.contents, length_contents]
    rfl
  empty := by
    have hv := h.valid.doutValid_eq
    rw [h.contents] at hv
    change (!s.doutValid) = q.items.isEmpty
    rw [hv, Bool.not_not]
  full := by
    rw [← h.dinReady]
    rfl

theorem stands_of_fresh (h : s.Fresh) : s.Stands BoundedQueue.flushed :=
  ⟨h.valid, h.contents_eq, h.2.2.1⟩

/-- **One cycle of the module is one cycle of the queue.** -/
theorem Stands.next (haw : 0 < aw) (h : s.Stands q) (i : Inputs α) :
    (s.next i).Stands (q.next (2 ^ aw) i.toQueue) := by
  cases hr : i.rst || i.clear with
  | true =>
    rw [BoundedQueue.next_of_flush (i := i.toQueue) hr]
    exact stands_of_fresh (fresh_next_of_reset s hr)
  | false =>
    rw [BoundedQueue.next_of_not_flush (i := i.toQueue) hr]
    have henque : (if s.enque i then [i.din] else []) =
        if q.accepts (2 ^ aw) then i.toQueue.offer.toList else [] := by
      rw [enque, h.dinReady]
      cases q.accepts (2 ^ aw) <;> cases hv : i.dinValid <;> simp [Inputs.toQueue, hv]
    -- nothing leaves an empty queue, asked for or not
    have hdeque : s.contents.drop (s.deque i).toNat = s.contents.drop i.doutReady.toNat := by
      cases hc : s.contents with
      | nil => rw [List.drop_nil, List.drop_nil]
      | cons x xs =>
        have hv : s.doutValid = true := by
          rw [h.valid.doutValid_eq, hc]
          rfl
        rw [deque, hv, Bool.true_and]
    have hcontents : (s.next i).contents = q.items.drop i.toQueue.take.toNat ++
        if q.accepts (2 ^ aw) then i.toQueue.offer.toList else [] := by
      rw [contents_next h.valid hr, hdeque, henque, h.contents]
      rfl
    refine ⟨h.valid.next haw i, hcontents, ?_⟩
    have hroom := nFull_next h.valid hr
    rw [← length_contents, hcontents] at hroom
    change (s.next i).nFull = (true && decide _)
    rw [Bool.true_and, Bool.eq_iff_iff, hroom, decide_eq_true_iff]

/-- **`basic_fifo` refines a bounded queue.**  From a reset or a clear on, whatever the inputs
are, the module shows at its ports what a queue of `2 ^ $clog2(DEPTH)` items shows, and in a
cycle with both an item coming in and one leaving the order and the length are kept. -/
theorem refines_queue (depth : Nat) (hdepth : 2 ≤ depth) (s : BasicFifo (clog2 depth) α)
    (i₀ : Inputs α) (hreset : (i₀.rst || i₀.clear) = true) (cycles : List (Inputs α)) :
    let s' := run next (s.next i₀) cycles
    let q' := run (BoundedQueue.next (2 ^ clog2 depth)) BoundedQueue.flushed
      (cycles.map Inputs.toQueue)
    s'.Shows q' ∧
    ∀ i : Inputs α, (i.rst || i.clear) = false → s'.enque i = true → s'.deque i = true →
      ∃ y rest, q'.items = y :: rest ∧ s'.dout = y ∧
        (q'.next (2 ^ clog2 depth) i.toQueue).items = rest ++ [i.din] ∧
        (s'.next i).itemCount = s'.itemCount := by
  intro s' q'
  have haw : 0 < clog2 depth := clog2_pos hdepth
  have hrun : s'.Stands q' :=
    run_related Inputs.toQueue (fun _ _ i h => h.next haw i)
      (stands_of_fresh (fresh_next_of_reset s hreset)) cycles
  refine ⟨hrun.shows, ?_⟩
  intro i hr he hd
  obtain ⟨hvalid, hready⟩ := Bool.and_eq_true_iff.mp he
  obtain ⟨hout, htake⟩ := Bool.and_eq_true_iff.mp hd
  rw [hrun.valid.doutValid_eq, hrun.contents] at hout
  rw [hrun.dinReady] at hready
  cases hq : q'.items with
  | nil =>
    rw [hq] at hout
    exact absurd hout Bool.false_ne_true
  | cons y rest =>
    have hoffer : i.toQueue.offer = some i.din := if_pos hvalid
    obtain ⟨hitems, hlen⟩ :=
      BoundedQueue.next_of_both (i := i.toQueue) hq hr hready hoffer htake
    refine ⟨y, rest, rfl, dout_eq (hrun.contents.trans hq), hitems, ?_⟩
    apply BitVec.eq_of_toNat_eq
    rw [(hrun.next haw i).shows.itemCount, hrun.shows.itemCount, hlen]

/-- Five items are offered to a queue of depth three right after its reset: the first comes too
early, and the others fill it. -/
def sampleCycles : List (Inputs (BitVec 8)) :=
  ⟨false, false, true, 0, false⟩ :: [1, 2, 3, 4].map fun x => ⟨false, false, true, x, false⟩

theorem refines_queue_three :
    (run next (next ⟨fun _ => 7, 1, 2, true, true, 5⟩ ⟨true, false, false, 0, false⟩)
        sampleCycles : BasicFifo (clog2 3) (BitVec 8)).dinReady = false ∧
      (run next (next ⟨fun _ => 7, 1, 2, true, true, 5⟩ ⟨true, false, false, 0, false⟩)
        sampleCycles : BasicFifo (clog2 3) (BitVec 8)).Shows ⟨[1, 2, 3, 4], false⟩ :=
  ⟨by decide +kernel,
    (refines_queue 3 (by decide) ⟨fun _ => 7, 1, 2, true, true, 5⟩
      ⟨true, false, false, 0, false⟩ rfl sampleCycles).1⟩

end BasicFifo

/-! ## `pipe_register` -/

namespace PipeRegister
variable {α : Type}

/-- The stage with the words it accepted and sent since the last reset. -/
structure Bench (α : Type) where
  stage : PipeRegister α
  accepted : List α
  sent : List α

def Bench.step (type : Nat) (b : Bench α) (i : Inputs α) : Bench α where
  stage := b.stage.next type i
  accepted :=
    if i.rst then []
    else b.accepted ++ if i.dinValid && b.stage.dinReady type i then [i.din] else []
  sent :=
    if i.rst then []
    else b.sent ++ if b.stage.doutValid type i && i.doutReady then [b.stage.dout type i] else []

/-- What the stage sent and what it holds is what it accepted. -/
structure Bench.Ordered (type : Nat) (b : Bench α) : Prop where
  valid : b.stage.Valid type
  conserved : b.sent ++ b.stage.contents type = b.accepted

variable {type : Nat} {s : PipeRegister α} {i : Inputs α}

/-- The capacity of a stage. -/
def capacity (type : Nat) : Nat := if type = 1 then 1 else 2

theorem length_contents_le (s : PipeRegister α) (ht : 0 < type) :
    (s.contents type).length ≤ capacity type := by
  rcases Nat.lt_or_eq_of_le (Nat.succ_le_of_lt ht) with ht | rfl
  · have hne : type ≠ 1 := Nat.ne_of_gt ht
    rw [capacity, if_neg hne, contents, if_pos ht]
    split_ifs <;> simp
  · rw [capacity, if_pos rfl, contents, if_neg (Nat.lt_irrefl 1), if_pos rfl]
    split_ifs <;> simp

/-- **A word on offer that is not taken stays on offer.** -/
theorem dout_next (ht : 0 < type) (hs : s.Valid type)
    (hr : i.rst = false) (hv : s.doutValid type i = true) (hd : i.doutReady = false)
    (j : Inputs α) :
    (s.next type i).doutValid type j = true ∧ (s.next type i).dout type j = s.dout type i := by
  rcases Nat.lt_or_eq_of_le (Nat.succ_le_of_lt ht) with ht1 | rfl
  · have hne : s.nEmpty = true := by simpa [doutValid, ht1] using hv
    cases hf : s.nFull <;> cases hi : i.dinValid <;>
      simp [doutValid, dout, next, nextSkid, skidFlags, ht, ht1, hr, hd, hne, hf, hi]
  · have hfull : s.full = true := by simpa [doutValid] using hv
    have hempty : s.empty = false := by
      cases he : s.empty with
      | false => rfl
      | true => exact absurd ⟨hfull, he⟩ (hs rfl)
    simp [doutValid, dout, next, nextSimple, hr, hd, hfull, hempty]

theorem valid_of_reset (hr : i.rst = true) : (s.next type i).Valid type := by
  intro ht
  subst ht
  simp [next, nextSimple, hr]

theorem Bench.ordered_of_reset (b : Bench α) (hr : i.rst = true) :
    (b.step type i).Ordered type where
  valid := valid_of_reset hr
  conserved := by
    change (if i.rst then [] else _) ++ (b.stage.next type i).contents type =
      if i.rst then [] else _
    rw [if_pos hr, if_pos hr, contents_of_reset hr]
    rfl

theorem Bench.Ordered.step {b : Bench α} (h : b.Ordered type) (i : Inputs α) :
    (b.step type i).Ordered type := by
  cases hr : i.rst with
  | true => exact b.ordered_of_reset hr
  | false =>
    refine ⟨h.valid.next i, ?_⟩
    have hcycle := conservation h.valid hr
    simp only [Bench.step, hr, Bool.false_eq_true, if_false]
    rw [List.append_assoc, ← hcycle, ← List.append_assoc, h.conserved]

/-- The single register after a reset: it waits for a word to leave, and has none. -/
def Stuck (s : PipeRegister α) : Prop := s.full = false ∧ s.empty = false

theorem stuck_of_reset (hr : i.rst = true) : (s.next 1 i).Stuck := by
  simp [Stuck, next, nextSimple, hr]

theorem Stuck.next (h : s.Stuck) (i : Inputs α) : (s.next 1 i).Stuck := by
  obtain ⟨hf, he⟩ := h
  simp [Stuck, PipeRegister.next, nextSimple, hf, he]

/-- A stage without words is ready, in the cycle after one without reset. -/
theorem dinReady_of_empty {i j : Inputs α} (ht : 1 < type)
    (hr : i.rst = false) (hc : (s.next type i).contents type = []) :
    (s.next type i).dinReady type j = true := by
  have hne : (s.next type i).nEmpty = false := by
    cases he : (s.next type i).nEmpty with
    | false => rfl
    | true =>
      obtain ⟨rest, hrest⟩ := contents_of_nEmpty ht he
      exact absurd (hc.symm.trans hrest).symm (List.cons_ne_nil _ _)
  have hnf := nFull_next_of_empty ht hr hne
  simpa [dinReady, ht] using hnf

/-- **`pipe_register` keeps its words in order in every type, and is ready again after a reset
exactly if it is a skid buffer.**  In every state of a run that begins with a reset, the words
sent since the last reset followed by the words held are the words accepted, no more words are
held than there are registers, and a word on offer stays until it is taken.  Once the reset has
been low for two cycles, a stage that holds nothing is ready if `TYPE` is 2 or more; with
`TYPE` 1 it is not. -/
theorem lossless_and_ready_iff (type : Nat) (ht : 0 < type) (b : Bench α) (i₀ : Inputs α)
    (hreset : i₀.rst = true) (cycles : List (Inputs α)) :
    let b' := run (Bench.step type) (b.step type i₀) cycles
    (b'.sent ++ b'.stage.contents type = b'.accepted ∧
      (b'.stage.contents type).length ≤ capacity type ∧
      ∀ i j, i.rst = false → b'.stage.doutValid type i = true → i.doutReady = false →
        (b'.step type i).stage.doutValid type j = true ∧
        (b'.step type i).stage.dout type j = b'.stage.dout type i) ∧
    ∀ i j, i.rst = false → j.rst = false → (b'.step type i).stage.contents type = [] →
      ((b'.step type i).stage.dinReady type j = true ↔ 2 ≤ type) := by
  intro b'
  have hordered : b'.Ordered type :=
    run_preserves (fun _ i h => h.step i) (b.ordered_of_reset hreset) cycles
  refine ⟨⟨hordered.conserved, length_contents_le _ ht, ?_⟩, ?_⟩
  · intro i j hr hv hd
    exact dout_next ht hordered.valid hr hv hd j
  · intro i j hr _ hc
    rcases Nat.lt_or_eq_of_le (Nat.succ_le_of_lt ht) with ht1 | rfl
    · exact iff_of_true (dinReady_of_empty ht1 hr hc) ht1
    · have hstuck : b'.stage.Stuck := by
        have hrun : ∀ c : Bench α, c.stage.Stuck → ∀ k, (c.step 1 k).stage.Stuck :=
          fun c h k => h.next k
        exact run_preserves (P := fun c : Bench α => c.stage.Stuck) (fun c k h => hrun c h k)
          (stuck_of_reset hreset) cycles
      have hnext : (b'.step 1 i).stage.dinReady 1 j = false := (hstuck.next i).2
      rw [hnext]
      simp

/-- A reset, then the word 5 on offer in every cycle, with the other side ready. -/
def offering (n : Nat) : List (Inputs (BitVec 8)) := List.replicate n ⟨false, true, 5, true⟩

theorem lossless_and_ready_iff_skid :
    (run (Bench.step 2) (Bench.step 2 ⟨⟨true, true, true, true, 0, 0⟩, [], []⟩
        ⟨true, false, 0, false⟩) (offering 3)).accepted = [5, 5] ∧
      (run (Bench.step 2) (Bench.step 2 ⟨⟨true, true, true, true, 0, 0⟩, [], []⟩
        ⟨true, false, 0, false⟩) (offering 3)).sent ++ [5] =
      (run (Bench.step 2) (Bench.step 2 ⟨⟨true, true, true, true, 0, 0⟩, [], []⟩
        ⟨true, false, 0, false⟩) (offering 3)).accepted :=
  ⟨by decide +kernel,
    (lossless_and_ready_iff 2 (by decide) ⟨⟨true, true, true, true, 0, 0⟩, [], []⟩
      ⟨true, false, 0, false⟩ rfl (offering 3)).1.1⟩

/-- The single register after its reset, with the word 5 on offer and the other side ready: it
holds nothing, the reset has been low for two cycles, and it is not ready. -/
theorem single_register_refuses :
    (run (Bench.step 1) (Bench.step 1 ⟨⟨true, true, true, true, 0, 0⟩, [], []⟩
        ⟨true, false, 0, false⟩) (offering 2)).stage.contents 1 = [] ∧
      (run (Bench.step 1) (Bench.step 1 ⟨⟨true, true, true, true, 0, 0⟩, [], []⟩
        ⟨true, false, 0, false⟩) (offering 2)).stage.dinReady 1 ⟨false, true, 5, true⟩ =
          false := by
  decide +kernel

/-- **The single register takes no word after a reset**, whatever is offered and for however
long. -/
theorem accepted_of_single (b : Bench α) {i₀ : Inputs α} (hreset : i₀.rst = true)
    (cycles : List (Inputs α)) :
    (run (Bench.step 1) (b.step 1 i₀) cycles).accepted = [] := by
  have hstep : ∀ c : Bench α, ∀ k : Inputs α,
      c.stage.Stuck ∧ c.accepted = [] → (c.step 1 k).stage.Stuck ∧ (c.step 1 k).accepted = [] := by
    intro c k ⟨hs, ha⟩
    refine ⟨hs.next k, ?_⟩
    have hready : c.stage.dinReady 1 k = false := hs.2
    simp [Bench.step, ha, hready]
  have hstart : (b.step 1 i₀).stage.Stuck ∧ (b.step 1 i₀).accepted = [] :=
    ⟨stuck_of_reset hreset, if_pos hreset⟩
  exact (run_preserves hstep hstart cycles).2

end PipeRegister

end Rosebud
