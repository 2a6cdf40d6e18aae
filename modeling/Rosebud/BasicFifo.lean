import Mathlib.Algebra.Group.Nat.Defs
import Mathlib.Data.List.Range
import Mathlib.Logic.Function.Basic

/-! # `basic_fifo`

The queue every descriptor of the design waits in.  It is a memory of `2 ^ aw`
entries (`aw` is `ADDR_WIDTH`, `$clog2(DEPTH)`) with a read and a write pointer.
Equal pointers mean empty or full; the two registers `n_full` and `n_empty`
remember which, and are also the handshakes `din_ready` and `dout_valid`.  Both low
is the state of the cycle after a reset or a clear.

`contents` is the queue the registers stand for, and `Valid` is what ties the
pointers, the flags and the item counter together.  `contents_next` is then all
that the modules built on it use.
-/
namespace Rosebud

structure BasicFifo (aw : Nat) (α : Type) where
  mem : BitVec aw → α
  rptr : BitVec aw
  wptr : BitVec aw
  nFull : Bool
  nEmpty : Bool
  itemCountR : BitVec (aw + 1)
deriving Inhabited

namespace BasicFifo
variable {aw : Nat} {α : Type}

structure Inputs (α : Type) where
  rst : Bool
  clear : Bool
  dinValid : Bool
  din : α
  doutReady : Bool

/-! ## The module -/

section Module
variable (s : BasicFifo aw α) (i : Inputs α)

def dinReady : Bool := s.nFull

def doutValid : Bool := s.nEmpty

def dout : α := s.mem s.rptr

def enque : Bool := i.dinValid && s.dinReady

def deque : Bool := s.doutValid && i.doutReady

/-- The registers after the clock edge. -/
def next : BasicFifo aw α :=
  if i.rst || i.clear then
    { s with wptr := 0, rptr := 0, nFull := false, nEmpty := false, itemCountR := 0 }
  else
    { mem := if s.enque i then Function.update s.mem s.wptr i.din else s.mem
      wptr := if s.enque i then s.wptr + 1 else s.wptr
      rptr := if s.deque i then s.rptr + 1 else s.rptr
      nFull :=
        if !s.nFull && !s.nEmpty then true
        else if s.enque i ^^ s.deque i then !(decide (s.wptr + 1 = s.rptr) && s.enque i)
        else s.nFull
      nEmpty :=
        if !s.nFull && !s.nEmpty then s.nEmpty
        else if s.enque i ^^ s.deque i then !(decide (s.rptr + 1 = s.wptr) && s.deque i)
        else s.nEmpty
      itemCountR :=
        if s.enque i && !s.deque i then s.itemCountR + 1
        else if !s.enque i && s.deque i then s.itemCountR - 1
        else s.itemCountR }

end Module

/-! ## The queue it stands for -/

/-- The number of entries. -/
def count (s : BasicFifo aw α) : Nat := s.itemCountR.toNat

/-- The entries, oldest first. -/
def contents (s : BasicFifo aw α) : List α :=
  (List.range s.count).map fun i => s.mem (s.rptr + BitVec.ofNat aw i)

/-- The registers of a queue that was reset once. -/
structure Valid (s : BasicFifo aw α) : Prop where
  count_le : s.count ≤ 2 ^ aw
  wptr_eq : s.wptr = s.rptr + BitVec.ofNat aw s.count
  nEmpty_iff : s.nEmpty = true ↔ 0 < s.count
  nFull_lt : s.nFull = true → s.count < 2 ^ aw
  not_nFull : s.nFull = false → s.count = 2 ^ aw ∨ s.count = 0

/-- A queue that was reset in the last cycle; its memory holds anything. -/
def Fresh (s : BasicFifo aw α) : Prop :=
  s.wptr = 0 ∧ s.rptr = 0 ∧ s.nFull = false ∧ s.nEmpty = false ∧ s.itemCountR = 0

@[simp] theorem length_contents (s : BasicFifo aw α) : s.contents.length = s.count := by
  simp [contents]

protected theorem Fresh.default [Inhabited α] : (default : BasicFifo aw α).Fresh :=
  ⟨rfl, rfl, rfl, rfl, rfl⟩

theorem Fresh.valid {s : BasicFifo aw α} (h : s.Fresh) : s.Valid := by
  obtain ⟨hw, hr, hf, he, hc⟩ := h
  have hcount : s.count = 0 := by simp [count, hc]
  constructor
  · rw [hcount]; exact Nat.zero_le _
  · simp [hw, hr, hcount]
  · simp [he, hcount]
  · simp [hf]
  · exact fun _ => .inr hcount

theorem Fresh.contents_eq {s : BasicFifo aw α} (h : s.Fresh) : s.contents = [] := by
  simp [contents, count, h.2.2.2.2]

theorem fresh_next_of_reset (s : BasicFifo aw α) {i : Inputs α}
    (h : (i.rst || i.clear) = true) : (s.next i).Fresh := by
  simp [Fresh, next, h]

/-! ## Pointer arithmetic -/

theorem ofNat_succ_eq_zero_iff {n : Nat} (h : n < 2 ^ aw) :
    BitVec.ofNat aw (n + 1) = BitVec.ofNat aw 0 ↔ n + 1 = 2 ^ aw := by
  rw [BitVec.toNat_inj.symm, BitVec.toNat_ofNat, BitVec.toNat_ofNat, Nat.zero_mod]
  constructor
  · intro hz
    have := Nat.dvd_of_mod_eq_zero hz
    exact Nat.le_antisymm (by omega) (Nat.le_of_dvd (by omega) this)
  · intro heq
    rw [heq, Nat.mod_self]

theorem ofNat_eq_one_iff {n : Nat} (haw : 0 < aw) (hle : n ≤ 2 ^ aw) :
    BitVec.ofNat aw n = BitVec.ofNat aw 1 ↔ n = 1 := by
  have htwo : 2 ≤ 2 ^ aw := by
    calc 2 = 2 ^ 1 := rfl
      _ ≤ 2 ^ aw := Nat.pow_le_pow_right (by omega) haw
  rw [BitVec.toNat_inj.symm, BitVec.toNat_ofNat, BitVec.toNat_ofNat,
    Nat.mod_eq_of_lt (show 1 < 2 ^ aw by omega)]
  rcases Nat.lt_or_ge n (2 ^ aw) with hlt | hge
  · rw [Nat.mod_eq_of_lt hlt]
  · have heq : n = 2 ^ aw := Nat.le_antisymm hle hge
    rw [heq, Nat.mod_self]
    omega

theorem ofNat_injOn {m n : Nat} (hm : m < 2 ^ aw) (hn : n < 2 ^ aw)
    (h : BitVec.ofNat aw m = BitVec.ofNat aw n) : m = n := by
  have := congrArg BitVec.toNat h
  rwa [BitVec.toNat_ofNat, BitVec.toNat_ofNat, Nat.mod_eq_of_lt hm, Nat.mod_eq_of_lt hn] at this

/-- The entries from a read pointer on. -/
def entries (mem : BitVec aw → α) (rptr : BitVec aw) (n : Nat) : List α :=
  (List.range n).map fun i => mem (rptr + BitVec.ofNat aw i)

theorem contents_eq_entries (s : BasicFifo aw α) :
    s.contents = entries s.mem s.rptr s.count := rfl

/-- Writing behind the last entry appends one, as long as the memory is not full:
no earlier entry has the same address. -/
theorem entries_push (mem : BitVec aw → α) (rptr : BitVec aw) {n : Nat} (h : n < 2 ^ aw)
    (x : α) :
    entries (Function.update mem (rptr + BitVec.ofNat aw n) x) rptr (n + 1) =
      entries mem rptr n ++ [x] := by
  unfold entries
  rw [List.range_succ, List.map_append, List.map_singleton, Function.update_self]
  congr 1
  refine List.map_congr_left fun i hi => ?_
  have hin : i < n := List.mem_range.mp hi
  have hne : rptr + BitVec.ofNat aw i ≠ rptr + BitVec.ofNat aw n := by
    intro heq
    have := ofNat_injOn (by omega) h ((BitVec.add_right_inj rptr).mp heq)
    omega
  exact Function.update_of_ne hne x mem

/-- Moving the read pointer drops the oldest entry. -/
theorem entries_pop (mem : BitVec aw → α) (rptr : BitVec aw) (n : Nat) :
    entries mem (rptr + 1) n = (entries mem rptr (n + 1)).drop 1 := by
  unfold entries
  rw [List.range_succ_eq_map, List.map_cons, List.drop_one, List.tail_cons, List.map_map]
  refine List.map_congr_left fun i _ => ?_
  have : BitVec.ofNat aw (i + 1) = BitVec.ofNat aw 1 + BitVec.ofNat aw i := by
    rw [Nat.add_comm, BitVec.ofNat_add]
  simp [this, BitVec.add_assoc]

/-! ## One cycle, on the queue -/

section Step
variable {s : BasicFifo aw α} {i : Inputs α}

theorem Valid.doutValid_eq (h : s.Valid) : s.doutValid = !s.contents.isEmpty := by
  have hne : s.doutValid = true ↔ 0 < s.count := h.nEmpty_iff
  have hlen := s.length_contents
  cases hc : s.contents with
  | nil =>
    rw [hc] at hlen
    cases hd : s.doutValid with
    | false => rfl
    | true => exact absurd (hne.mp hd) (by rw [← hlen]; exact Nat.lt_irrefl 0)
  | cons x xs =>
    rw [hc] at hlen
    exact hne.mpr (by rw [← hlen]; exact Nat.succ_pos _)

theorem dout_eq {x : α} {xs : List α} (hc : s.contents = x :: xs) :
    s.dout = x := by
  have hpos : 0 < s.count := by rw [← s.length_contents, hc]; exact Nat.succ_pos _
  obtain ⟨n, hn⟩ := Nat.exists_eq_add_of_lt hpos
  rw [contents, show s.count = n + 1 by omega, List.range_succ_eq_map, List.map_cons] at hc
  simpa [dout] using (List.cons.inj hc).1

theorem Valid.contents_eq_cons (h : s.Valid) (hv : s.doutValid = true) :
    ∃ xs, s.contents = s.dout :: xs := by
  rw [h.doutValid_eq] at hv
  cases hc : s.contents with
  | nil => simp [hc] at hv
  | cons x xs => exact ⟨xs, by rw [dout_eq hc]⟩

theorem Valid.length_le (h : s.Valid) : s.contents.length ≤ 2 ^ aw := by
  rw [length_contents]
  exact h.count_le

theorem count_next (h : s.Valid) (hr : (i.rst || i.clear) = false) :
    (s.next i).count = s.count + (s.enque i).toNat - (s.deque i).toNat := by
  have hle := h.count_le
  have hpow : 2 ^ (aw + 1) = 2 * 2 ^ aw := by rw [Nat.pow_succ, Nat.mul_comm]
  have hone : 1 ≤ 2 ^ aw := Nat.one_le_two_pow
  have hone' : (BitVec.ofNat (aw + 1) 1).toNat = 1 := by
    exact Nat.mod_eq_of_lt (by omega)
  unfold count at hle ⊢
  cases he : s.enque i <;> cases hd : s.deque i
  · simp [next, hr, he, hd]
  · have hpos : 0 < s.itemCountR.toNat := by
      have := (Bool.and_eq_true_iff.mp hd).1
      exact h.nEmpty_iff.mp this
    have hge : BitVec.ofNat (aw + 1) 1 ≤ s.itemCountR := by
      rw [BitVec.le_def, hone']
      omega
    simp only [next, hr, he, hd]
    simpa [hone'] using BitVec.toNat_sub_of_le hge
  · have hroom : s.itemCountR.toNat < 2 ^ aw := h.nFull_lt (Bool.and_eq_true_iff.mp he).2
    have hlt : s.itemCountR.toNat + (BitVec.ofNat (aw + 1) 1).toNat < 2 ^ (aw + 1) := by
      omega
    simp only [next, hr, he, hd]
    simpa [hone'] using BitVec.toNat_add_of_lt hlt
  · simp [next, hr, he, hd]

/-- **A cycle of the queue**: the oldest entry leaves if it is taken, and the offered
one is appended if there is room. -/
theorem contents_next (h : s.Valid) (hr : (i.rst || i.clear) = false) :
    (s.next i).contents =
      s.contents.drop (s.deque i).toNat ++ (if s.enque i then [i.din] else []) := by
  have hcount := count_next h hr
  have hpos : s.deque i = true → 0 < s.count := fun hd =>
    h.nEmpty_iff.mp (Bool.and_eq_true_iff.mp hd).1
  have hlt : s.enque i = true → s.count < 2 ^ aw := fun he =>
    h.nFull_lt (Bool.and_eq_true_iff.mp he).2
  rw [contents_eq_entries, contents_eq_entries, hcount]
  cases he : s.enque i <;> cases hd : s.deque i
  · simp [next, hr, he, hd]
  · have hp := hpos hd
    simp only [next, hr, he, hd]
    have hpop := entries_pop s.mem s.rptr (s.count - 1)
    rw [Nat.sub_add_cancel hp] at hpop
    simpa using hpop
  · simp only [next, hr, he, hd, h.wptr_eq]
    simpa using entries_push s.mem s.rptr (hlt he) i.din
  · have hp := hpos hd
    have hpop := entries_pop (Function.update s.mem s.wptr i.din) s.rptr s.count
    rw [h.wptr_eq, entries_push s.mem s.rptr (hlt he) i.din,
      List.drop_append_of_le_length (by simp [entries]; omega)] at hpop
    simp only [next, hr, he, hd, h.wptr_eq]
    simpa using hpop

theorem wptr_next (h : s.Valid) (hr : (i.rst || i.clear) = false) :
    (s.next i).wptr = (s.next i).rptr + BitVec.ofNat aw (s.next i).count := by
  rw [count_next h hr]
  cases he : s.enque i <;> cases hd : s.deque i
  · simp [next, hr, he, hd, h.wptr_eq]
  · have hpos : 0 < s.count := h.nEmpty_iff.mp (Bool.and_eq_true_iff.mp hd).1
    have hsucc : BitVec.ofNat aw s.count = BitVec.ofNat aw 1 + BitVec.ofNat aw (s.count - 1) := by
      rw [← BitVec.ofNat_add, Nat.add_sub_cancel' hpos]
    simp [next, hr, he, hd, h.wptr_eq, hsucc, BitVec.add_assoc]
  · simp [next, hr, he, hd, h.wptr_eq, BitVec.ofNat_add, BitVec.add_assoc]
  · have hcomm : BitVec.ofNat aw s.count + BitVec.ofNat aw 1 =
        BitVec.ofNat aw 1 + BitVec.ofNat aw s.count := BitVec.add_comm _ _
    simp [next, hr, he, hd, h.wptr_eq, BitVec.add_assoc, hcomm]

/-- The write pointer catches up with the read pointer when the last free place is
taken. -/
theorem wptr_succ_eq_rptr_iff (h : s.Valid) (hlt : s.count < 2 ^ aw) :
    s.wptr + 1 = s.rptr ↔ s.count + 1 = 2 ^ aw := by
  rw [← ofNat_succ_eq_zero_iff hlt, h.wptr_eq, BitVec.add_assoc,
    show (BitVec.ofNat aw s.count + 1 : BitVec aw) = BitVec.ofNat aw (s.count + 1) from
      (BitVec.ofNat_add ..).symm]
  exact BitVec.add_right_eq_self

/-- The read pointer catches up with the write pointer when the last entry leaves. -/
theorem rptr_succ_eq_wptr_iff (haw : 0 < aw) (h : s.Valid) :
    s.rptr + 1 = s.wptr ↔ s.count = 1 := by
  rw [← ofNat_eq_one_iff haw h.count_le, h.wptr_eq]
  constructor
  · exact fun heq => ((BitVec.add_right_inj s.rptr).mp heq).symm
  · exact fun heq => by rw [heq]; rfl

theorem nEmpty_next (haw : 0 < aw) (h : s.Valid) (hr : (i.rst || i.clear) = false) :
    (s.next i).nEmpty = true ↔ 0 < (s.next i).count := by
  have hiff := h.nEmpty_iff
  rw [count_next h hr]
  cases he : s.enque i <;> cases hd : s.deque i
  · simpa [next, hr, he, hd] using hiff
  · obtain ⟨hv, -⟩ := Bool.and_eq_true_iff.mp hd
    have hone := rptr_succ_eq_wptr_iff haw h
    have hpos := hiff.mp hv
    change s.nEmpty = true at hv
    simp only [next, hr, he, hd, hv]
    simp only [Bool.false_eq_true, if_false, Bool.not_true, Bool.and_false, Bool.and_true,
      Bool.xor_true, Bool.not_false, if_true, Bool.not_eq_true', decide_eq_false_iff_not,
      Bool.toNat_false, Bool.toNat_true, hone]
    omega
  · obtain ⟨-, hf⟩ := Bool.and_eq_true_iff.mp he
    change s.nFull = true at hf
    simp [next, hr, he, hd, hf]
  · obtain ⟨hv, -⟩ := Bool.and_eq_true_iff.mp hd
    have hpos := hiff.mp hv
    change s.nEmpty = true at hv
    simp [next, hr, he, hd, hv, hpos]

/-- After a cycle without reset, the queue accepts exactly when it has room. -/
theorem nFull_next (h : s.Valid) (hr : (i.rst || i.clear) = false) :
    (s.next i).nFull = true ↔ (s.next i).count < 2 ^ aw := by
  have hle := h.count_le
  have hpow : 0 < 2 ^ aw := Nat.two_pow_pos aw
  rw [count_next h hr]
  cases he : s.enque i <;> cases hd : s.deque i
  · cases hf : s.nFull with
    | true => simpa [next, hr, he, hd, hf] using h.nFull_lt hf
    | false =>
      cases hv : s.nEmpty with
      | true =>
        have hpos := h.nEmpty_iff.mp hv
        have hfull : s.count = 2 ^ aw := (h.not_nFull hf).resolve_right (by omega)
        simp [next, hr, he, hd, hf, hv, hfull]
      | false =>
        have hz : s.count = 0 := by
          have := mt h.nEmpty_iff.mpr (by simp [hv])
          omega
        simp [next, hr, he, hd, hf, hv, hz, hpow]
  · simp only [next, hr, he, hd]
    simp
    omega
  · obtain ⟨-, hf⟩ := Bool.and_eq_true_iff.mp he
    have hlt := h.nFull_lt hf
    have hwrap := wptr_succ_eq_rptr_iff h hlt
    change s.nFull = true at hf
    simp only [next, hr, he, hd, hf]
    simp only [Bool.not_true, Bool.false_and, Bool.false_eq_true, if_false, Bool.xor_false,
      if_true, Bool.and_true, Bool.not_eq_true', decide_eq_false_iff_not, hwrap,
      Bool.toNat_true, Bool.toNat_false]
    omega
  · obtain ⟨-, hf⟩ := Bool.and_eq_true_iff.mp he
    have hlt := h.nFull_lt hf
    change s.nFull = true at hf
    simp [next, hr, he, hd, hf]
    omega

theorem Valid.next (haw : 0 < aw) (h : s.Valid) (i : Inputs α) : (s.next i).Valid := by
  cases hr : i.rst || i.clear with
  | true => exact (fresh_next_of_reset s hr).valid
  | false =>
    have hfull := nFull_next h hr
    have hbound : (s.next i).count ≤ 2 ^ aw := by
      have hlen := count_next h hr
      have hle := h.count_le
      cases he : s.enque i with
      | true =>
        have hlt := h.nFull_lt (Bool.and_eq_true_iff.mp he).2
        simp only [he, Bool.toNat_true] at hlen
        omega
      | false =>
        simp only [he, Bool.toNat_false] at hlen
        omega
    constructor
    · exact hbound
    · exact wptr_next h hr
    · exact nEmpty_next haw h hr
    · exact hfull.mp
    · intro hf
      have hge : ¬ (s.next i).count < 2 ^ aw := fun hlt => by simp [hfull.mpr hlt] at hf
      exact .inl (by omega)

/-- The entry on offer is one of the entries. -/
theorem Valid.dout_mem (h : s.Valid) (hv : s.doutValid = true) : s.dout ∈ s.contents := by
  obtain ⟨xs, hc⟩ := h.contents_eq_cons hv
  rw [hc]
  exact List.mem_cons_self

/-- An entry on offer that is not taken stays on offer. -/
theorem dout_next (haw : 0 < aw) (h : s.Valid) (hr : (i.rst || i.clear) = false)
    (hv : s.doutValid = true) (hd : s.deque i = false) :
    (s.next i).doutValid = true ∧ (s.next i).dout = s.dout := by
  obtain ⟨xs, hc⟩ := h.contents_eq_cons hv
  have hcons : (s.next i).contents = s.dout :: (xs ++ if s.enque i then [i.din] else []) := by
    rw [contents_next h hr, hd, hc]
    rfl
  refine ⟨?_, dout_eq hcons⟩
  rw [(h.next haw i).doutValid_eq, hcons]
  rfl

variable (h : s.Valid) (hr : (i.rst || i.clear) = false)
include h hr

/-- A cycle outside reset loses, repeats and reorders nothing. -/
theorem conservation : s.contents ++ (if s.enque i then [i.din] else []) =
      (if s.deque i then [s.dout] else []) ++ (s.next i).contents := by
  rw [contents_next h hr]
  cases hd : s.deque i with
  | false => simp
  | true =>
    obtain ⟨xs, hc⟩ := h.contents_eq_cons (Bool.and_eq_true_iff.mp hd).1
    simp [hc]

/-- After a cycle without reset, a queue that is not full accepts. -/
theorem dinReady_next_of_lt (hlt : (s.next i).contents.length < 2 ^ aw) :
    (s.next i).dinReady = true := by
  rw [length_contents] at hlt
  exact (nFull_next h hr).mpr hlt

/-- A queue with room that takes nothing keeps its room. -/
theorem dinReady_next (hready : s.dinReady = true) (he : s.enque i = false) :
    (s.next i).dinReady = true := by
  refine (nFull_next h hr).mpr ?_
  have hlt := h.nFull_lt hready
  rw [count_next h hr, he]
  exact Nat.lt_of_le_of_lt (Nat.sub_le _ _) hlt

/-- What holds of the entries and of what is offered holds of the entries after. -/
theorem forall_contents_next {Q : α → Prop} (hc : ∀ x ∈ s.contents, Q x)
    (hd : s.enque i = true → Q i.din) : ∀ x ∈ (s.next i).contents, Q x := by
  intro x hx
  rw [contents_next h hr, List.mem_append] at hx
  rcases hx with hx | hx
  · exact hc x (List.mem_of_mem_drop hx)
  · split at hx
    · rename_i he
      rw [List.mem_singleton.mp hx]
      exact hd he
    · exact absurd hx List.not_mem_nil

end Step

end BasicFifo
end Rosebud
