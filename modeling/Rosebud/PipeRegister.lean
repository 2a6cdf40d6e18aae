import Mathlib.Data.List.Basic

/-! # `pipe_register`

The register stage between two valid/ready channels, in its three types: `TYPE` 0
is a wire, 1 a single register, 2 and above a skid buffer of two registers whose
flags `n_empty` and `n_full` are, negated, its two handshakes.

`contents` is what the stage holds.  `conservation` says that a cycle outside reset
appends the accepted word to it and takes the sent one off its front, for every
type; a module that has such a stage on its output needs nothing else about it.

`axis_register` is a `pipe_register` whose words are the signals of a stream side by side,
with `REG_TYPE` as its type.
-/
namespace Rosebud

/-- The registers of all types; an instance uses those of its own. -/
structure PipeRegister (α : Type) where
  nFull : Bool
  nEmpty : Bool
  full : Bool
  empty : Bool
  doutReg : α
  tmpReg : α
deriving Inhabited

namespace PipeRegister
variable {α : Type}

structure Inputs (α : Type) where
  rst : Bool
  dinValid : Bool
  din : α
  doutReady : Bool

/-! ## The module -/

section Module
variable (type : Nat) (s : PipeRegister α) (i : Inputs α)

def dinReady : Bool :=
  if 1 < type then s.nFull else if type = 1 then s.empty else i.doutReady

def doutValid : Bool :=
  if 1 < type then s.nEmpty else if type = 1 then s.full else i.dinValid

def dout : α := if 0 < type then s.doutReg else i.din

/-- The skid buffer's flags after the clock edge. -/
def skidFlags : Bool × Bool :=
  if i.rst then (false, false)
  else if !s.nFull then (if i.doutReady || !s.nEmpty then true else s.nFull, s.nEmpty)
  else if !s.nEmpty then (s.nFull, if i.dinValid then true else s.nEmpty)
  else if i.dinValid && !i.doutReady then (false, s.nEmpty)
  else if !i.dinValid && i.doutReady then (s.nFull, false)
  else (s.nFull, s.nEmpty)

/-- The skid buffer after the clock edge. -/
def nextSkid : PipeRegister α :=
  { s with
    nFull := (s.skidFlags i).1
    nEmpty := (s.skidFlags i).2
    doutReg :=
      if !s.nFull then (if i.doutReady then s.tmpReg else s.doutReg)
      else if i.doutReady || !s.nEmpty then i.din else s.doutReg
    tmpReg := if i.dinValid && s.nFull then i.din else s.tmpReg }

/-- The single register after the clock edge. -/
def nextSimple : PipeRegister α :=
  { s with
    full :=
      if i.rst then false
      else if s.full && i.doutReady then false
      else if s.empty then i.dinValid else s.full
    empty :=
      if i.rst then false
      else if s.full && i.doutReady then true
      else if s.empty then !i.dinValid else s.empty
    doutReg := if s.empty then i.din else s.doutReg }

def next : PipeRegister α :=
  if 1 < type then s.nextSkid i else if type = 1 then s.nextSimple i else s

end Module

/-! ## The queue it stands for -/

/-- The words held, oldest first. -/
def contents (type : Nat) (s : PipeRegister α) : List α :=
  if 1 < type then
    if !s.nEmpty then [] else if s.nFull then [s.doutReg] else [s.doutReg, s.tmpReg]
  else if type = 1 then (if s.full then [s.doutReg] else [])
  else []

/-- The single register is never full and empty at once. -/
def Valid (type : Nat) (s : PipeRegister α) : Prop :=
  type = 1 → ¬ (s.full = true ∧ s.empty = true)

/-- A stage that was reset in the last cycle; its data registers hold anything. -/
def Fresh (s : PipeRegister α) : Prop :=
  s.nFull = false ∧ s.nEmpty = false ∧ s.full = false ∧ s.empty = false

protected theorem Fresh.default [Inhabited α] : (default : PipeRegister α).Fresh :=
  ⟨rfl, rfl, rfl, rfl⟩

section Step
variable {type : Nat} {s : PipeRegister α} {i : Inputs α}

theorem Fresh.valid (h : s.Fresh) : s.Valid type := by
  intro _ hv
  simp [h.2.2.1] at hv

theorem Fresh.contents_eq (h : s.Fresh) : s.contents type = [] := by
  simp [contents, h.2.1, h.2.2.1]

theorem Valid.next (h : s.Valid type) (i : Inputs α) : (s.next type i).Valid type := by
  intro ht hv
  subst ht
  simp only [PipeRegister.next, nextSimple] at hv
  cases hf : s.full <;> cases he : s.empty <;> cases hd : i.doutReady <;>
    cases hv' : i.dinValid <;> simp_all

theorem contents_of_reset (hr : i.rst = true) :
    (s.next type i).contents type = [] := by
  rcases Nat.lt_trichotomy type 1 with ht | ht | ht
  · have hz : type = 0 := by omega
    simp [contents, hz]
  · simp [contents, next, nextSimple, ht, hr]
  · simp [contents, next, nextSkid, skidFlags, ht, hr]

/-- **A cycle outside reset loses, repeats and reorders nothing.** -/
theorem conservation (h : s.Valid type) (hr : i.rst = false) :
    s.contents type ++ (if i.dinValid && s.dinReady type i then [i.din] else []) =
      (if s.doutValid type i && i.doutReady then [s.dout type i] else []) ++
        (s.next type i).contents type := by
  rcases Nat.lt_trichotomy type 1 with ht | ht | ht
  · have hz : type = 0 := by omega
    simp [contents, dinReady, doutValid, dout, hz]
  · subst ht
    have hs := h rfl
    cases hf : s.full <;> cases he : s.empty <;> cases hd : i.doutReady <;>
      cases hv : i.dinValid <;>
      simp_all [contents, dinReady, doutValid, dout, next, nextSimple]
  · have ht0 : 0 < type := by omega
    cases hf : s.nFull <;> cases he : s.nEmpty <;> cases hd : i.doutReady <;>
      cases hv : i.dinValid <;>
      simp [contents, dinReady, doutValid, dout, next, nextSkid, skidFlags, ht, ht0, hr, hf, he,
        hd, hv]

/-- A word on offer is the oldest one held, or the one just arriving. -/
theorem dout_mem (hv : s.doutValid type i = true) :
    (s.contents type ++ (if i.dinValid then [i.din] else [])).head? = some (s.dout type i) := by
  rcases Nat.lt_trichotomy type 1 with ht | ht | ht
  · simp_all [contents, doutValid, dout]
  · simp_all [contents, doutValid, dout]
  · have ht0 : 0 < type := by omega
    cases hf : s.nFull <;> simp_all [contents, doutValid, dout]

/-- What the words of a stage have in common the word on offer has too, once the word on its
input has it. -/
theorem forall_dout (hv : s.doutValid type i = true) {Q : α → Prop}
    (hc : ∀ x ∈ s.contents type, Q x) (hi : i.dinValid = true → Q i.din) :
    Q (s.dout type i) := by
  rcases List.mem_append.mp (List.mem_of_head? (dout_mem hv)) with hold | hnew
  · exact hc _ hold
  · split at hnew
    · rename_i hd
      rw [List.mem_singleton.mp hnew]
      exact hi hd
    · exact absurd hnew List.not_mem_nil

theorem forall_contents_next (h : s.Valid type) (hr : i.rst = false) {Q : α → Prop}
    (hc : ∀ x ∈ s.contents type, Q x) (hi : i.dinValid = true → Q i.din) :
    ∀ x ∈ (s.next type i).contents type, Q x := by
  intro x hx
  have hmem : x ∈ s.contents type ++
      (if i.dinValid && s.dinReady type i then [i.din] else []) := by
    rw [conservation h hr]
    exact List.mem_append_right _ hx
  rcases List.mem_append.mp hmem with hold | hnew
  · exact hc x hold
  · split at hnew
    · rename_i hacc
      rw [List.mem_singleton.mp hnew]
      exact hi (Bool.and_eq_true_iff.mp hacc).1
    · exact absurd hnew List.not_mem_nil

/-- A stage that holds a word offers one. -/
theorem doutValid_of_contents (hc : s.contents type ≠ []) : s.doutValid type i = true := by
  unfold contents at hc
  unfold doutValid
  by_contra hv
  split_ifs at hc hv <;> simp_all

section Skid
variable (ht : 1 < type)
include ht

/-- What the skid buffer offers is the oldest word it holds. -/
theorem contents_of_nEmpty (he : s.nEmpty = true) :
    ∃ rest, s.contents type = s.doutReg :: rest := by
  cases hf : s.nFull <;> simp [contents, ht, he, hf]

theorem nEmpty_of_contents (hc : s.contents type ≠ []) : s.nEmpty = true := by
  by_contra he
  simp [contents, ht, he] at hc

theorem contents_of_not_nEmpty (he : s.nEmpty = false) : s.contents type = [] := by
  simp [contents, ht, he]

/-- A skid buffer with room holds one word at most. -/
theorem length_contents_of_nFull (hf : s.nFull = true) : (s.contents type).length ≤ 1 := by
  cases he : s.nEmpty <;> simp [contents, ht, he, hf]

/-- A full skid buffer does not run empty in one cycle. -/
theorem nEmpty_next_of_full (hr : i.rst = false) (hf : s.nFull = false) :
    (s.next type i).nEmpty = s.nEmpty := by
  simp [next, nextSkid, skidFlags, ht, hr, hf]

/-- A skid buffer with one word has room for another. -/
theorem nFull_of_singleton {x : α} (hc : s.contents type = [x]) : s.nFull = true := by
  by_contra hf
  cases he : s.nEmpty <;> simp [contents, ht, he, hf] at hc

/-- A skid buffer that runs empty shows the word that was not offered. -/
theorem doutReg_of_empty_next (hr : i.rst = false) (hf : s.nFull = true)
    (he : (s.next type i).nEmpty = false) :
    i.dinValid = false ∧ (s.next type i).doutReg = i.din := by
  cases hn : s.nEmpty <;> cases hd : i.doutReady <;> cases hv : i.dinValid <;>
    simp_all [next, nextSkid, skidFlags]

/-- Only a reset lowers both flags of a skid buffer. -/
theorem nFull_next_of_empty (hr : i.rst = false)
    (he : (s.next type i).nEmpty = false) : (s.next type i).nFull = true := by
  cases hf : s.nFull <;> cases hn : s.nEmpty <;> cases hd : i.doutReady <;>
    cases hv : i.dinValid <;> simp_all [next, nextSkid, skidFlags]

/-- In the cycle after a reset a skid buffer that is not asked for a word keeps its output. -/
theorem doutReg_of_fresh (hf : s.nFull = false) (hd : i.doutReady = false) :
    (s.next type i).doutReg = s.doutReg := by
  simp [next, nextSkid, ht, hf, hd]

end Skid

/-- An empty stage offers nothing of its own. -/
theorem doutValid_of_empty (hs : s.contents type = []) (hi : i.dinValid = false) :
    s.doutValid type i = false := by
  by_contra hv
  have hmem := dout_mem (Bool.not_eq_false _ ▸ hv)
  simp [hs, hi] at hmem

/-! ## What is left to do -/

variable (type s) in
/-- The words to be sent, and whether a skid buffer has to become ready first. -/
def rank : Nat :=
  2 * (s.contents type).length + if 1 < type ∧ s.nFull = false then 1 else 0

/-- A word taken in adds at most three to what is left, and a word sent takes two off. -/
theorem rank_next (h : s.Valid type) (hr : i.rst = false) :
    (s.next type i).rank type + (if s.doutValid type i && i.doutReady then 2 else 0) ≤
      s.rank type + (if i.dinValid && s.dinReady type i then 3 else 0) := by
  rcases Nat.lt_trichotomy type 1 with ht | ht | ht
  · have hz : type = 0 := by omega
    subst hz
    cases hd : i.doutReady <;> cases hv : i.dinValid <;>
      simp [rank, contents, dinReady, doutValid, hd, hv]
  · subst ht
    cases hf : s.full <;> cases he : s.empty <;> cases hd : i.doutReady <;>
      cases hv : i.dinValid <;>
      simp_all [rank, contents, dinReady, doutValid, next, nextSimple]
  · cases hf : s.nFull <;> cases he : s.nEmpty <;> cases hd : i.doutReady <;>
      cases hv : i.dinValid <;>
      simp [rank, contents, dinReady, doutValid, next, nextSkid, skidFlags, ht, hr, hf, he, hd, hv]

/-- A stage that holds nothing is ready, or becomes so. -/
theorem rank_next_of_contents (hr : i.rst = false) (hc : s.contents type = [])
    (hrank : s.rank type ≠ 0) : (s.next type i).rank type < s.rank type := by
  by_cases ht : 1 < type
  · cases hf : s.nFull with
    | true => exact absurd (by simp [rank, hc, hf]) hrank
    | false =>
      have he : s.nEmpty = false := by simpa [contents, ht, hf] using hc
      simp [rank, contents, next, nextSkid, skidFlags, ht, hr, hf, he]
  · exact absurd (by simp [rank, hc, ht]) hrank

/-- A stage with something to do does it when its receiver is ready. -/
theorem rank_next_lt (h : s.Valid type) (hr : i.rst = false) (hd : i.doutReady = true)
    (hrank : s.rank type ≠ 0) :
    (s.next type i).rank type <
      s.rank type + (if i.dinValid && s.dinReady type i then 3 else 0) := by
  by_cases hc : s.contents type = []
  · exact Nat.lt_of_lt_of_le (rank_next_of_contents hr hc hrank) (Nat.le_add_right _ _)
  · have hle := rank_next (i := i) h hr
    rw [doutValid_of_contents hc, hd] at hle
    simp only [Bool.and_self, if_true] at hle
    omega

theorem contents_of_rank (hrank : s.rank type = 0) : s.contents type = [] := by
  unfold rank at hrank
  exact List.length_eq_zero_iff.mp (by omega)

/-- A stage with nothing to do takes a word in, unless it is the single register, which is
never ready after a reset. -/
theorem dinReady_of_rank (ht : type ≠ 1) (hd : type = 0 → i.doutReady = true)
    (hrank : s.rank type = 0) : s.dinReady type i = true := by
  unfold rank at hrank
  unfold dinReady
  by_cases h1 : 1 < type
  · by_contra hf
    simp_all
  · rw [if_neg h1, if_neg ht]
    exact hd (by omega)

end Step

end PipeRegister
end Rosebud
