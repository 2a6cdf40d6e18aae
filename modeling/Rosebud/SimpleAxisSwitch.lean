import Rosebud.PipeRegister
import Rosebud.Selectors

/-! # `simple_axis_switch`

A crossbar between `S_COUNT` streams and `M_COUNT` streams.  Each input has a register stage,
and the top bits of its `tdest` select an output.  Each output has an arbiter over the inputs
that ask for it, a state that remembers that a packet is under way, and a register stage.

In a cycle an output takes at most one word (`passes`), an input hands at most one word on
(`handsOn`), and the two are the same words (`passes_iff_handsOn`): the ready of an input is
the one of the output its word goes to.
-/
namespace Rosebud.SimpleAxisSwitch

/-- `S_COUNT`, `M_COUNT`, `DEST_WIDTH`, `S_REG_TYPE`, `M_REG_TYPE` and
`ARB_LSB_HIGH_PRIORITY`; the arbitration is round robin. -/
structure Config where
  sCount : Nat
  mCount : Nat
  destWidth : Nat
  sRegType : Nat
  mRegType : Nat
  arbLsbHighPriority : Bool
  two_le_sCount : 2 ≤ sCount
  two_le_mCount : 2 ≤ mCount
  clog2_le : clog2 mCount ≤ destWidth

/-- A word of a stream: `payload` is `tdata` with those of `tkeep`, `tid` and `tuser` that are
enabled. -/
structure Word (P : Config) (α : Type) where
  payload : α
  tdest : BitVec P.destWidth
  tlast : Bool
deriving DecidableEq

instance {P : Config} {α : Type} [Inhabited α] : Inhabited (Word P α) := ⟨⟨default, 0, false⟩⟩

variable {P : Config} {α : Type}

/-- The top `CL_M_COUNT` bits of `tdest`. -/
def select (w : Word P α) : Nat := w.tdest.toNat >>> (P.destWidth - clog2 P.mCount)

inductive State where
  | idle
  | proc
deriving DecidableEq

/-- The registers of one output. -/
structure Output (P : Config) (α : Type) where
  state : State
  grantEncodedR : Nat
  arb : SimpleArbiter P.sCount
  reg : PipeRegister (Word P α)

structure Regs (P : Config) (α : Type) where
  sReg : Fin P.sCount → PipeRegister (Word P α)
  outputs : Fin P.mCount → Output P α

structure Inputs (P : Config) (α : Type) where
  sAxisTvalid : Fin P.sCount → Bool
  sAxis : Fin P.sCount → Word P α
  mAxisTready : Fin P.mCount → Bool

/-! ## The module -/

section Module
variable (r : Regs P α) (i : Inputs P α) (m : Fin P.sCount) (n : Fin P.mCount)

/-- What an input register sees, once its receiver is known to be ready or not. -/
def sSide (ready : Bool) : PipeRegister.Inputs (Word P α) :=
  ⟨false, i.sAxisTvalid m, i.sAxis m, ready⟩

-- neither the valid nor the word of a register stage depends on its receiver
def intSAxisTvalid : Bool := (r.sReg m).doutValid P.sRegType (sSide i m false)

def intSAxis : Word P α := (r.sReg m).dout P.sRegType (sSide i m false)

def intAxisTvalid : Bool := intSAxisTvalid r i m && decide (select (intSAxis r i m) = n.val)

def request : Fin P.sCount → Bool := fun m => intAxisTvalid r i m n

def grantValid : Bool := (r.outputs n).arb.grantValidBy (request r i n) P.arbLsbHighPriority

def grantEncoded : Nat := (r.outputs n).arb.grantEncodedBy (request r i n) P.arbLsbHighPriority

/-- The input the multiplexer is set to. -/
def granted : Nat :=
  match (r.outputs n).state with
  | .idle => grantEncoded r i n
  | .proc => (r.outputs n).grantEncodedR

def sAxisTvalidMux : Bool :=
  match (r.outputs n).state with
  | .idle => padded false (request r i n) (grantEncoded r i n) && grantValid r i n
  | .proc => padded false (request r i n) (r.outputs n).grantEncodedR

def sAxisMux [Inhabited α] : Word P α := padded default (intSAxis r i) (granted r i n)

-- nor does its ready depend on the word it is offered
def sAxisTreadyMux [Inhabited α] : Bool :=
  (r.outputs n).reg.dinReady P.mRegType ⟨false, false, default, i.mAxisTready n⟩

def intAxisTready [Inhabited α] : Bool :=
  sAxisTreadyMux r i n && decide (m.val = granted r i n)

/-- The ready of an input is the one of the output it selects. -/
def intSAxisTready [Inhabited α] : Bool :=
  padded false (fun n => intAxisTready r i m n) (select (intSAxis r i m))

def mSide [Inhabited α] : PipeRegister.Inputs (Word P α) :=
  ⟨false, sAxisTvalidMux r i n, sAxisMux r i n, i.mAxisTready n⟩

def nextState [Inhabited α] : State :=
  match (r.outputs n).state with
  | .idle =>
    if grantValid r i n && sAxisTreadyMux r i n && !(sAxisMux r i n).tlast then .proc else .idle
  | .proc =>
    if (sAxisMux r i n).tlast && sAxisTvalidMux r i n && sAxisTreadyMux r i n then .idle else .proc

def nextOutput [Inhabited α] : Output P α where
  state := nextState r i n
  grantEncodedR :=
    match (r.outputs n).state with
    | .idle => grantEncoded r i n
    | .proc => (r.outputs n).grantEncodedR
  arb := (r.outputs n).arb.nextBy (request r i n) P.arbLsbHighPriority
    (sAxisTreadyMux r i n && decide ((r.outputs n).state = .idle))
  reg := (r.outputs n).reg.next P.mRegType (mSide r i n)

/-- The registers after the clock edge, outside reset. -/
def next [Inhabited α] : Regs P α where
  sReg := fun m => (r.sReg m).next P.sRegType (sSide i m (intSAxisTready r i m))
  outputs := fun n => nextOutput r i n

def sAxisTready [Inhabited α] : Bool :=
  (r.sReg m).dinReady P.sRegType (sSide i m (intSAxisTready r i m))

def mAxisTvalid [Inhabited α] : Bool := (r.outputs n).reg.doutValid P.mRegType (mSide r i n)

def mAxis [Inhabited α] : Word P α := (r.outputs n).reg.dout P.mRegType (mSide r i n)

end Module

/-- The state a reset leaves. -/
structure Fresh (r : Regs P α) : Prop where
  sReg : ∀ m, (r.sReg m).Fresh
  state : ∀ n, (r.outputs n).state = .idle
  arb : ∀ n m, (r.outputs n).arb.mask m = false
  reg : ∀ n, (r.outputs n).reg.Fresh

/-! ## The words that cross the switch -/

section Words
variable [Inhabited α] (r : Regs P α) (i : Inputs P α) (m : Fin P.sCount) (n : Fin P.mCount)

/-- The word an input takes in. -/
def accepts : List (Word P α) :=
  if i.sAxisTvalid m && sAxisTready r i m then [i.sAxis m] else []

/-- The word an input hands on to an output. -/
def handsOn : List (Word P α) :=
  if intSAxisTvalid r i m && intSAxisTready r i m then [intSAxis r i m] else []

/-- The word an output takes, with the input it comes from. -/
def passes : List (Fin P.sCount × Word P α) :=
  if h : granted r i n < P.sCount then
    if sAxisTvalidMux r i n && sAxisTreadyMux r i n then
      [(⟨granted r i n, h⟩, intSAxis r i ⟨granted r i n, h⟩)] else []
  else []

/-- The word an output puts out. -/
def sends : List (Word P α) :=
  if mAxisTvalid r i n && i.mAxisTready n then [mAxis r i n] else []

/-- A packet starts on an output. -/
def starts : Bool :=
  decide ((r.outputs n).state = .idle) && grantValid r i n && sAxisTreadyMux r i n

end Words

section Cycle
variable {r : Regs P α} {i : Inputs P α} {m : Fin P.sCount} {n : Fin P.mCount} {w : Word P α}

theorem request_eq_true : request r i n m = true ↔
    intSAxisTvalid r i m = true ∧ select (intSAxis r i m) = n.val := by
  rw [request, intAxisTvalid, Bool.and_eq_true, decide_eq_true_eq]

/-- The multiplexer offers the word of the granted input, if that input asks. -/
theorem sAxisTvalidMux_eq (h : granted r i n < P.sCount) :
    sAxisTvalidMux r i n = request r i n ⟨granted r i n, h⟩ := by
  unfold sAxisTvalidMux
  cases hs : (r.outputs n).state with
  | idle =>
    have hg : granted r i n = grantEncoded r i n := by rw [granted, hs]
    simp only [hg] at h ⊢
    rw [padded_of_lt h]
    cases hreq : request r i n ⟨grantEncoded r i n, h⟩ with
    | false => rfl
    | true => exact SimpleArbiter.grantValidBy_of_request hreq
  | proc =>
    have hg : granted r i n = (r.outputs n).grantEncodedR := by rw [granted, hs]
    simp only [hg] at h ⊢
    exact padded_of_lt h

theorem granted_lt (h : sAxisTvalidMux r i n = true) : granted r i n < P.sCount := by
  have hpad : padded false (request r i n) (granted r i n) = true := by
    unfold sAxisTvalidMux at h
    unfold granted
    cases hs : (r.outputs n).state with
    | idle =>
      rw [hs] at h
      exact (Bool.and_eq_true_iff.mp h).1
    | proc =>
      rw [hs] at h
      exact h
  exact lt_of_padded_ne (by rw [hpad]; exact Bool.noConfusion)

variable [Inhabited α]

theorem passes_eq_singleton : passes r i n = [(m, w)] ↔
    granted r i n = m.val ∧ request r i n m = true ∧ sAxisTreadyMux r i n = true ∧
      intSAxis r i m = w := by
  unfold passes
  constructor
  · intro h
    split at h
    · rename_i hlt
      rw [sAxisTvalidMux_eq hlt] at h
      split at h
      · rename_i hgo
        obtain ⟨hpair, -⟩ := List.cons.inj h
        obtain ⟨rfl, rfl⟩ := Prod.mk.inj hpair
        obtain ⟨hreq, hready⟩ := Bool.and_eq_true_iff.mp hgo
        exact ⟨rfl, hreq, hready, rfl⟩
      · exact absurd h.symm (List.cons_ne_nil _ _)
    · exact absurd h.symm (List.cons_ne_nil _ _)
  · rintro ⟨hg, hreq, hready, rfl⟩
    have hlt : granted r i n < P.sCount := hg ▸ m.isLt
    have hm : (⟨granted r i n, hlt⟩ : Fin P.sCount) = m := Fin.ext hg
    rw [dif_pos hlt, sAxisTvalidMux_eq hlt, hm, hreq, hready]
    rfl

theorem passes_cases : passes r i n = [] ∨ ∃ m w, passes r i n = [(m, w)] := by
  unfold passes
  split
  · split
    · exact .inr ⟨_, _, rfl⟩
    · exact .inl rfl
  · exact .inl rfl

theorem handsOn_eq_singleton : handsOn r i m = [w] ↔
    intSAxisTvalid r i m = true ∧ intSAxisTready r i m = true ∧ intSAxis r i m = w := by
  unfold handsOn
  cases intSAxisTvalid r i m <;> cases intSAxisTready r i m <;> simp

theorem handsOn_cases : handsOn r i m = [] ∨ ∃ w, handsOn r i m = [w] := by
  unfold handsOn
  split
  · exact .inr ⟨_, rfl⟩
  · exact .inl rfl

/-- **The words the outputs take are the words the inputs hand on.** -/
theorem passes_iff_handsOn : passes r i n = [(m, w)] ↔ handsOn r i m = [w] ∧ select w = n.val := by
  rw [passes_eq_singleton, handsOn_eq_singleton, request_eq_true]
  constructor
  · rintro ⟨hg, ⟨hv, hsel⟩, hready, rfl⟩
    refine ⟨⟨hv, ?_, rfl⟩, hsel⟩
    rw [intSAxisTready, hsel, padded_val, intAxisTready, hready, hg, decide_eq_true rfl]
    rfl
  · rintro ⟨⟨hv, hready, rfl⟩, hsel⟩
    rw [intSAxisTready, hsel, padded_val, intAxisTready, Bool.and_eq_true, decide_eq_true_eq]
      at hready
    exact ⟨hready.2.symm, ⟨hv, hsel⟩, hready.1, rfl⟩

/-- Input by input and output by output. -/
theorem filter_passes : ((passes r i n).filter fun x => decide (x.1 = m)).map Prod.snd =
    (handsOn r i m).filter fun w => decide (select w = n.val) := by
  rcases handsOn_cases (r := r) (i := i) (m := m) with hnone | ⟨w, hw⟩
  · rw [hnone]
    rcases passes_cases (r := r) (i := i) (n := n) with hp | ⟨k, v, hp⟩
    · rw [hp]
      rfl
    · have hk : k ≠ m := by
        rintro rfl
        obtain ⟨hv, -⟩ := passes_iff_handsOn.mp hp
        exact absurd (hv.symm.trans hnone) (List.cons_ne_nil _ _)
      simp [hp, hk]
  · rw [hw]
    by_cases hsel : select w = n.val
    · have hp := passes_iff_handsOn.mpr ⟨hw, hsel⟩
      simp [hp, hsel]
    · rcases passes_cases (r := r) (i := i) (n := n) with hp | ⟨k, v, hp⟩
      · simp [hp, hsel]
      · have hk : k ≠ m := by
          rintro rfl
          obtain ⟨hv, hv'⟩ := passes_iff_handsOn.mp hp
          obtain ⟨rfl, -⟩ := List.cons.inj (hw.symm.trans hv)
          exact hsel hv'
        simp [hp, hk, hsel]

/-! ### The register stages -/

theorem sReg_conservation (h : (r.sReg m).Valid P.sRegType) :
    (r.sReg m).contents P.sRegType ++ accepts r i m =
      handsOn r i m ++ ((next r i).sReg m).contents P.sRegType :=
  PipeRegister.conservation (i := sSide i m (intSAxisTready r i m)) h rfl

theorem reg_takes :
    (if sAxisTvalidMux r i n && (r.outputs n).reg.dinReady P.mRegType (mSide r i n) then
      [sAxisMux r i n] else []) = (passes r i n).map Prod.snd := by
  change (if sAxisTvalidMux r i n && sAxisTreadyMux r i n then _ else _) = _
  unfold passes
  by_cases hlt : granted r i n < P.sCount
  · rw [dif_pos hlt, sAxisMux, padded_of_lt hlt]
    split <;> rfl
  · have hv : sAxisTvalidMux r i n = false := Bool.eq_false_iff.mpr fun hv => hlt (granted_lt hv)
    rw [dif_neg hlt, hv]
    rfl

theorem reg_conservation (h : (r.outputs n).reg.Valid P.mRegType) :
    (r.outputs n).reg.contents P.mRegType ++ (passes r i n).map Prod.snd =
      sends r i n ++ ((next r i).outputs n).reg.contents P.mRegType := by
  rw [← reg_takes]
  exact PipeRegister.conservation (i := mSide r i n) h rfl

/-! ### Packets -/

theorem starts_eq_true : starts r i n = true ↔
    (r.outputs n).state = .idle ∧ grantValid r i n = true ∧ sAxisTreadyMux r i n = true := by
  simp [starts, and_assoc]

/-- An output that takes nothing stays as it is, but for the port its arbiter would grant. -/
theorem state_next_of_nil (h : passes r i n = []) :
    ((next r i).outputs n).state = (r.outputs n).state ∧
      ((r.outputs n).state = .proc →
        ((next r i).outputs n).grantEncodedR = (r.outputs n).grantEncodedR) := by
  have hno : ¬ (sAxisTvalidMux r i n && sAxisTreadyMux r i n) = true := by
    intro hgo
    have hlt := granted_lt (Bool.and_eq_true_iff.mp hgo).1
    rw [passes, dif_pos hlt, if_pos hgo] at h
    exact List.cons_ne_nil _ _ h
  change nextState r i n = _ ∧ (_ → (nextOutput r i n).grantEncodedR = _)
  unfold nextState nextOutput
  cases hs : (r.outputs n).state with
  | idle =>
    refine ⟨if_neg ?_, fun hp => absurd hp (by decide)⟩
    intro hgo
    obtain ⟨hgo, -⟩ := Bool.and_eq_true_iff.mp hgo
    obtain ⟨hv, hready⟩ := Bool.and_eq_true_iff.mp hgo
    obtain ⟨hlt, hreq⟩ := SimpleArbiter.request_of_grantValidBy hv
    have hmux : sAxisTvalidMux r i n = true := by
      rw [sAxisTvalidMux, hs]
      exact Bool.and_eq_true_iff.mpr ⟨(padded_of_lt hlt).trans hreq, hv⟩
    exact hno (Bool.and_eq_true_iff.mpr ⟨hmux, hready⟩)
  | proc =>
    refine ⟨if_neg ?_, fun _ => rfl⟩
    intro hgo
    obtain ⟨hgo, hready⟩ := Bool.and_eq_true_iff.mp hgo
    exact hno (Bool.and_eq_true_iff.mpr ⟨(Bool.and_eq_true_iff.mp hgo).2, hready⟩)

/-- An output that takes a word is busy with its input until the last one. -/
theorem state_next_of_passes (h : passes r i n = [(m, w)]) :
    ((next r i).outputs n).state = (if w.tlast then .idle else .proc) ∧
      ((next r i).outputs n).grantEncodedR = m.val ∧
      ((r.outputs n).state = .proc → (r.outputs n).grantEncodedR = m.val) := by
  obtain ⟨hg, hreq, hready, rfl⟩ := passes_eq_singleton.mp h
  have hmux : sAxisMux r i n = intSAxis r i m := by
    rw [sAxisMux, hg, padded_val]
  have hv : sAxisTvalidMux r i n = true := by
    have hlt : granted r i n < P.sCount := hg ▸ m.isLt
    rw [sAxisTvalidMux_eq hlt, show (⟨granted r i n, hlt⟩ : Fin P.sCount) = m from Fin.ext hg, hreq]
  change nextState r i n = _ ∧ (nextOutput r i n).grantEncodedR = _ ∧ _
  unfold nextState nextOutput
  cases hs : (r.outputs n).state with
  | idle =>
    have hgv : grantValid r i n = true := SimpleArbiter.grantValidBy_of_request hreq
    rw [granted, hs] at hg
    refine ⟨?_, hg, fun hp => absurd hp (by decide)⟩
    rw [hgv, hready, hmux]
    cases (intSAxis r i m).tlast <;> rfl
  | proc =>
    rw [granted, hs] at hg
    refine ⟨?_, hg, fun _ => hg⟩
    rw [hv, hready, hmux]
    cases (intSAxis r i m).tlast <;> rfl

end Cycle

end Rosebud.SimpleAxisSwitch
