import Mathlib.Algebra.BigOperators.Group.Finset.Basic
import Rosebud.Selectors

/-! # `axis_arb_mux`

The multiplexer in front of a shared stream: an input register per port, a blocking
round robin arbiter that holds its grant until the granted packet's last word is
passed on, and a skid buffer on the output.  A word is its payload (the data and the
side channels of the stream) with its `tlast`.

`port_conservation` says that a port hands its words on in their order, and
`Valid.conservation` that each word handed on by a port goes through the output registers.
For packets of one word `work` is a measure of what is still to be done: without new words no
cycle raises it, a word sent takes two off (`Valid.work_next`), and as long as no word is
behind the ports every cycle lowers it (`Valid.work_next_lt`).
-/
namespace Rosebud

structure AxisArbMux (n : Nat) (α : Type) where
  sAxisReg : Fin n → α × Bool
  sAxisTvalidReg : Fin n → Bool
  arb : Arbiter n
  mAxisTreadyIntReg : Bool
  mAxisTvalidReg : Bool
  mAxisReg : α × Bool
  tempMAxisTvalidReg : Bool
  tempMAxisReg : α × Bool
deriving Inhabited

namespace AxisArbMux
variable {n : Nat} {α : Type}

structure Inputs (n : Nat) (α : Type) where
  sAxisTvalid : Fin n → Bool
  sAxis : Fin n → α × Bool
  mAxisTready : Bool

section Module
variable (s : AxisArbMux n α) (i : Inputs n α)

def sAxisTready (j : Fin n) : Bool :=
  !s.sAxisTvalidReg j || (s.mAxisTreadyIntReg && s.arb.grantReg j)

def mAxisTvalid : Bool := s.mAxisTvalidReg

def mAxis : α × Bool := s.mAxisReg

def request (j : Fin n) : Bool :=
  (s.sAxisTvalidReg j && !s.arb.grantReg j) || (i.sAxisTvalid j && s.arb.grantReg j)

def acknowledge (j : Fin n) : Bool :=
  s.arb.grantReg j && s.sAxisTvalidReg j && s.mAxisTreadyIntReg && (s.sAxisReg j).2

/-- The word of the granted port. -/
def mAxisInt [Inhabited α] : α × Bool := padded default s.sAxisReg s.arb.grantEncodedReg

def mAxisTvalidInt : Bool :=
  padded false s.sAxisTvalidReg s.arb.grantEncodedReg && s.mAxisTreadyIntReg &&
    s.arb.grantValidReg

def mAxisTreadyIntEarly : Bool :=
  i.mAxisTready || (!s.tempMAxisTvalidReg && (!s.mAxisTvalidReg || !s.mAxisTvalidInt))

def storeAxisIntToOutput : Bool :=
  s.mAxisTreadyIntReg && (i.mAxisTready || !s.mAxisTvalidReg)

def storeAxisIntToTemp : Bool :=
  s.mAxisTreadyIntReg && !(i.mAxisTready || !s.mAxisTvalidReg)

def storeAxisTempToOutput : Bool := !s.mAxisTreadyIntReg && i.mAxisTready

/-- The registers after the clock edge, outside reset. -/
def next [Inhabited α] : AxisArbMux n α where
  sAxisReg := fun j => if s.sAxisTready j then i.sAxis j else s.sAxisReg j
  sAxisTvalidReg := fun j => if s.sAxisTready j then i.sAxisTvalid j else s.sAxisTvalidReg j
  arb := s.arb.next true (s.request i) s.acknowledge
  mAxisTreadyIntReg := s.mAxisTreadyIntEarly i
  mAxisTvalidReg :=
    if s.storeAxisIntToOutput i then s.mAxisTvalidInt
    else if s.storeAxisTempToOutput i then s.tempMAxisTvalidReg
    else s.mAxisTvalidReg
  mAxisReg :=
    if s.storeAxisIntToOutput i then s.mAxisInt
    else if s.storeAxisTempToOutput i then s.tempMAxisReg
    else s.mAxisReg
  tempMAxisTvalidReg :=
    if s.storeAxisIntToTemp i then s.mAxisTvalidInt
    else if s.storeAxisTempToOutput i then false
    else s.tempMAxisTvalidReg
  tempMAxisReg := if s.storeAxisIntToTemp i then s.mAxisInt else s.tempMAxisReg

end Module

/-- The state a reset leaves: nothing registered, nothing granted. -/
structure Fresh (s : AxisArbMux n α) : Prop where
  sAxisTvalidReg : ∀ j, s.sAxisTvalidReg j = false
  arb : s.arb = Arbiter.reset
  mAxisTreadyIntReg : s.mAxisTreadyIntReg = false
  mAxisTvalidReg : s.mAxisTvalidReg = false
  tempMAxisTvalidReg : s.tempMAxisTvalidReg = false

/-! ## The words inside -/

section Words
variable (s : AxisArbMux n α) (i : Inputs n α)

/-- The words behind the ports, oldest first. -/
def contents : List (α × Bool) :=
  (if s.mAxisTvalidReg then [s.mAxisReg] else []) ++
    if s.tempMAxisTvalidReg then [s.tempMAxisReg] else []

/-- The word in the register of a port. -/
def portContents (j : Fin n) : List (α × Bool) :=
  if s.sAxisTvalidReg j then [s.sAxisReg j] else []

def accepts (j : Fin n) : List (α × Bool) :=
  if i.sAxisTvalid j && s.sAxisTready j then [i.sAxis j] else []

/-- The word a port hands on to the output side. -/
def passesOf (j : Fin n) : List (α × Bool) :=
  if s.arb.grantReg j && s.sAxisTvalidReg j && s.mAxisTreadyIntReg then [s.sAxisReg j] else []

/-- The word the output side takes. -/
def passes [Inhabited α] : List (α × Bool) := if s.mAxisTvalidInt then [s.mAxisInt] else []

def sends : List (α × Bool) := if s.mAxisTvalid && i.mAxisTready then [s.mAxis] else []

/-- One port has the grant; the spare register is free if the output side is ready, and is
used last. -/
structure Valid : Prop where
  arb : s.arb.OneHot
  spare : s.mAxisTreadyIntReg = true → s.tempMAxisTvalidReg = false
  order : s.tempMAxisTvalidReg = true → s.mAxisTvalidReg = true

end Words

section Step
variable {s : AxisArbMux n α} {i : Inputs n α}

theorem Fresh.valid (h : s.Fresh) : s.Valid where
  arb := h.arb ▸ Arbiter.oneHot_reset
  spare := by simp [h.mAxisTreadyIntReg]
  order := by simp [h.tempMAxisTvalidReg]

theorem Fresh.contents_eq (h : s.Fresh) : (∀ j, s.portContents j = []) ∧ s.contents = [] :=
  ⟨fun j => by simp [portContents, h.sAxisTvalidReg],
    by simp [contents, h.mAxisTvalidReg, h.tempMAxisTvalidReg]⟩

/-- **Nothing is lost, repeated or reordered** at a port. -/
theorem port_conservation [Inhabited α] (j : Fin n) :
    s.portContents j ++ s.accepts i j = s.passesOf j ++ (s.next i).portContents j := by
  cases hv : s.sAxisTvalidReg j <;> cases hg : s.arb.grantReg j <;>
    cases hr : s.mAxisTreadyIntReg <;> cases hi : i.sAxisTvalid j <;>
    simp [portContents, accepts, passesOf, next, sAxisTready, hv, hg, hr, hi]

/-- A word is handed on only to a ready output side. -/
theorem mAxisTreadyIntReg_of_mAxisTvalidInt (h : s.mAxisTvalidInt = true) :
    s.mAxisTreadyIntReg = true := by
  simp only [mAxisTvalidInt, Bool.and_eq_true] at h
  exact h.1.2

theorem Valid.next [Inhabited α] (h : s.Valid) (i : Inputs n α) : (s.next i).Valid := by
  obtain ⟨harb, hspare, horder⟩ := h
  refine ⟨harb.next, ?_, ?_⟩ <;>
    cases hr : s.mAxisTreadyIntReg <;> cases hm : i.mAxisTready <;>
    cases hv : s.mAxisTvalidReg <;> cases ht : s.tempMAxisTvalidReg <;>
    cases hi : s.mAxisTvalidInt <;>
    simp_all [AxisArbMux.next, mAxisTreadyIntEarly, storeAxisIntToOutput, storeAxisIntToTemp,
      storeAxisTempToOutput]

/-- **Nothing is lost, repeated or reordered** behind the ports. -/
theorem Valid.conservation [Inhabited α] (h : s.Valid) :
    s.contents ++ s.passes = s.sends i ++ (s.next i).contents := by
  obtain ⟨-, hspare, horder⟩ := h
  have hready := mAxisTreadyIntReg_of_mAxisTvalidInt (s := s)
  cases hr : s.mAxisTreadyIntReg <;> cases hm : i.mAxisTready <;>
    cases hv : s.mAxisTvalidReg <;> cases ht : s.tempMAxisTvalidReg <;>
    cases hi : s.mAxisTvalidInt <;>
    simp_all [contents, passes, sends, mAxisTvalid, mAxis, AxisArbMux.next,
      storeAxisIntToOutput, storeAxisIntToTemp, storeAxisTempToOutput]

/-- A port with the grant is the only one that hands a word on. -/
theorem Valid.passes_eq [Inhabited α] (h : s.Valid) :
    (s.passes = [] ∧ ∀ j, s.passesOf j = []) ∨
      ∃ j, s.passes = [s.sAxisReg j] ∧ s.passesOf j = [s.sAxisReg j] ∧
        s.sAxisTvalidReg j = true ∧ ∀ k, k ≠ j → s.passesOf k = [] := by
  unfold passes passesOf mAxisTvalidInt mAxisInt
  cases hv : s.arb.grantValidReg with
  | false => simp [h.arb.grantReg, hv]
  | true =>
    have hlt := h.arb.lt hv
    have hgrant : ∀ k : Fin n, s.arb.grantReg k = decide (k = ⟨_, hlt⟩) := by
      intro k
      rw [h.arb.grantReg, hv, Bool.true_and]
      exact decide_eq_decide.mpr ⟨fun h => Fin.ext h, fun h => congrArg Fin.val h⟩
    simp only [padded_of_lt hlt, hgrant]
    cases hr : s.mAxisTreadyIntReg with
    | false => simp
    | true =>
      cases hp : s.sAxisTvalidReg ⟨_, hlt⟩ with
      | false =>
        refine .inl ⟨by simp, fun j => ?_⟩
        by_cases hj : j = ⟨_, hlt⟩
        · simp [hj, hp]
        · simp [hj]
      | true => exact .inr ⟨⟨_, hlt⟩, by simp, by simp [hp], hp, fun k hk => by simp [hk]⟩

/-! ## What is left to do -/

/-- The words at the ports are whole packets, and the port with the grant has one. -/
structure Serving (s : AxisArbMux n α) : Prop where
  last : ∀ j, s.sAxisTvalidReg j = true → (s.sAxisReg j).2 = true
  granted : ∀ j, s.arb.grantReg j = true → s.sAxisTvalidReg j = true

theorem Fresh.serving (h : s.Fresh) : s.Serving where
  last j hj := by simp [h.sAxisTvalidReg] at hj
  granted j hj := by simp [h.arb, Arbiter.reset] at hj

theorem Serving.next [Inhabited α] (h : s.Serving) (hone : ∀ j, (i.sAxis j).2 = true) :
    (s.next i).Serving where
  last j hj := by
    cases hr : s.sAxisTready j with
    | true => simpa [AxisArbMux.next, hr] using hone j
    | false => simpa [AxisArbMux.next, hr] using h.last j (by simpa [AxisArbMux.next, hr] using hj)
  granted j hj := by
    have hgrant : ∀ x : Fin n → Bool, PriorityEncoder.outputValid x = true →
        (Arbiter.granted x).grantReg j = true → x j = true := by
      intro x hx hxj
      obtain rfl : j = ⟨_, PriorityEncoder.outputEncoded_lt hx⟩ := Fin.ext (of_decide_eq_true hxj)
      exact PriorityEncoder.input_outputEncoded hx
    change (if s.sAxisTready j then i.sAxisTvalid j else s.sAxisTvalidReg j) = true
    change (s.arb.next true (s.request i) s.acknowledge).grantReg j = true at hj
    rcases Arbiter.next_cases true s.arb (s.request i) s.acknowledge with
      ⟨-, -, hno, heq⟩ | ⟨hack, ⟨x, hx, hv, heq⟩ | ⟨-, heq⟩⟩
    · -- the grant is kept because the word has not left
      rw [heq] at hj
      have hvalid := h.granted j hj
      have hready : s.mAxisTreadyIntReg = false := by
        simpa [acknowledge, hj, hvalid, h.last j hvalid] using hno j hj
      simp [sAxisTready, hvalid, hready]
    · rw [heq] at hj
      have hreq := hx j (hgrant x hv hj)
      cases hg : s.arb.grantReg j with
      | false =>
        have hvalid : s.sAxisTvalidReg j = true := by simpa [request, hg] using hreq
        simp [sAxisTready, hvalid, hg]
      | true =>
        have hvalid := h.granted j hg
        have hnew : i.sAxisTvalid j = true := by simpa [request, hg] using hreq
        simp [hnew, hvalid]
    · rw [heq] at hj
      exact absurd hj Bool.false_ne_true

/-- The words at the ports. -/
def atPorts (s : AxisArbMux n α) : Nat := ∑ j, (s.portContents j).length

/-- A word at a port counts five, a word behind the ports two; as long as words are at the
ports it counts one each that no port has the grant and that the output side is not ready. -/
def work (s : AxisArbMux n α) : Nat :=
  5 * s.atPorts + 2 * s.contents.length +
    (if s.atPorts ≠ 0 ∧ s.arb.grantValidReg = false then 1 else 0) +
    if s.atPorts ≠ 0 ∧ s.mAxisTreadyIntReg = false then 1 else 0

theorem contents_of_work (h : s.work = 0) : (∀ j, s.portContents j = []) ∧ s.contents = [] := by
  unfold work at h
  have hports : s.atPorts = 0 := by omega
  refine ⟨fun j => List.length_eq_zero_iff.mp ?_, List.length_eq_zero_iff.mp (by omega)⟩
  exact Finset.sum_eq_zero_iff.mp hports j (Finset.mem_univ j)

section Work
variable [Inhabited α] (h : s.Valid)

/-- Without a word passed on the output side is ready again if its spare register is free. -/
theorem mAxisTreadyIntReg_next (hnone : s.passes = []) (htemp : s.tempMAxisTvalidReg = false) :
    (s.next i).mAxisTreadyIntReg = true := by
  have hint : s.mAxisTvalidInt = false := by
    by_contra hv
    simp [passes, hv] at hnone
  simp [next, mAxisTreadyIntEarly, htemp, hint]

include h

theorem Valid.atPorts_next (hnew : ∀ j, s.accepts i j = []) :
    (s.next i).atPorts + s.passes.length = s.atPorts := by
  have hport : ∀ j, (s.portContents j).length =
      (s.passesOf j).length + ((s.next i).portContents j).length := by
    intro j
    have hcons := congrArg List.length (port_conservation (s := s) (i := i) j)
    rwa [hnew j, List.append_nil, List.length_append] at hcons
  have hsum : ∑ j, (s.passesOf j).length = s.passes.length := by
    rcases h.passes_eq with ⟨hnone, hall⟩ | ⟨j, hpass, hown, -, hother⟩
    · simp [hnone, hall]
    · rw [hpass, Finset.sum_eq_single j (fun k _ hk => by rw [hother k hk]; rfl)
        (fun hj => absurd (Finset.mem_univ j) hj), hown]
  simp only [atPorts, hport, Finset.sum_add_distrib, hsum]
  omega

/-- Without a word passed on a grant stays, and a port with a word gets one. -/
theorem Valid.grantValidReg_next (hnone : s.passes = []) (hports : s.atPorts ≠ 0) :
    (s.next i).arb.grantValidReg = true := by
  change (s.arb.next true (s.request i) s.acknowledge).grantValidReg = true
  rcases Arbiter.next_cases true s.arb (s.request i) s.acknowledge with
    ⟨-, hv, -, heq⟩ | ⟨hack, ⟨x, -, -, heq⟩ | ⟨hno, heq⟩⟩
  · rw [heq, hv]
  · rw [heq]
    rfl
  · cases hv : s.arb.grantValidReg with
    | false =>
      obtain ⟨j, -, hj⟩ := Finset.exists_ne_zero_of_sum_ne_zero hports
      have hvalid : s.sAxisTvalidReg j = true := by
        by_contra hf
        simp [portContents, hf] at hj
      have hreq := hno j
      simp [request, hvalid, h.arb.grantReg, hv] at hreq
    | true =>
      obtain ⟨j, hg, hj⟩ := hack rfl hv
      rcases h.passes_eq with ⟨-, hall⟩ | ⟨k, hpass, -⟩
      · have hnone' := hall j
        simp only [acknowledge, Bool.and_eq_true] at hj
        simp [passesOf, hj.1] at hnone'
      · exact absurd (hpass.symm.trans hnone) (List.cons_ne_nil _ _)

variable (hnew : ∀ j, s.accepts i j = [])
include hnew

/-- **Without new words no cycle raises what is left to do**, and a word sent takes two off. -/
theorem Valid.work_next : (s.next i).work + 2 * (s.sends i).length ≤ s.work := by
  have hports := h.atPorts_next hnew
  have hout := congrArg List.length (h.conservation (i := i))
  rw [List.length_append, List.length_append] at hout
  unfold work
  rcases h.passes_eq with ⟨hnone, -⟩ | ⟨j, hpass, -⟩
  · rw [hnone, List.length_nil] at hports hout
    rw [Nat.add_zero] at hports
    have hgrant := h.grantValidReg_next (i := i) hnone
    have hready : s.mAxisTreadyIntReg = true → (s.next i).mAxisTreadyIntReg = true :=
      fun hr => mAxisTreadyIntReg_next hnone (h.spare hr)
    cases hr : s.mAxisTreadyIntReg with
    | true =>
      split_ifs <;> simp_all <;> omega
    | false => split_ifs <;> simp_all <;> omega
  · rw [hpass, List.length_singleton] at hports hout
    split_ifs <;> omega

/-- **With words at the ports only, a cycle gets one of them further.** -/
theorem Valid.work_next_lt (hserving : s.Serving) (hempty : s.contents = [])
    (hwork : s.work ≠ 0) : (s.next i).work < s.work := by
  have hports := h.atPorts_next hnew
  have hout := congrArg List.length (h.conservation (i := i))
  rw [List.length_append, List.length_append, hempty, List.length_nil] at hout
  have hz : s.atPorts ≠ 0 := by
    intro hz
    exact hwork (by simp [work, hz, hempty])
  unfold work
  rcases h.passes_eq with ⟨hnone, hall⟩ | ⟨j, hpass, -⟩
  · have hg := h.grantValidReg_next (i := i) hnone hz
    have htemp : s.tempMAxisTvalidReg = false := by
      by_contra ht
      simp [contents, ht] at hempty
    have hr := mAxisTreadyIntReg_next (i := i) hnone htemp
    -- a port with the grant would have passed its word on to a ready output side
    have hwaits : s.arb.grantValidReg = false ∨ s.mAxisTreadyIntReg = false := by
      cases hv : s.arb.grantValidReg with
      | false => exact .inl rfl
      | true =>
        have hgrant : s.arb.grantReg ⟨_, h.arb.lt hv⟩ = true := by simp [h.arb.grantReg, hv]
        have hno := hall ⟨_, h.arb.lt hv⟩
        simpa [passesOf, hgrant, hserving.granted _ hgrant] using hno
    have hone : 1 ≤ (if s.atPorts ≠ 0 ∧ s.arb.grantValidReg = false then 1 else 0) +
        if s.atPorts ≠ 0 ∧ s.mAxisTreadyIntReg = false then 1 else 0 := by
      rcases hwaits with hw | hw <;> simp [hz, hw]
    rw [hg, hr, hempty]
    simp only [Bool.true_eq_false, and_false, if_false, List.length_nil]
    omega
  · rw [hpass, List.length_singleton] at hports hout
    split_ifs <;> omega

end Work

end Step

end AxisArbMux
end Rosebud
