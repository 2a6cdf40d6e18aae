import Mathlib.Data.Fintype.Basic
import Mathlib.Data.BitVec
import Rosebud.RoundRobin
import Rosebud.Tournament

/-! # Arbiters and finders

The combinational choices of the design and the registers around them:
`priority_encoder`, `simple_arbiter` and `arbiter` (round robin, low ports first as the
round robin policy has them; the two first also high ports first, as the hash policies
have them) and `max_finder_tree`.

A vector of `n` lines is a function on `Fin n`; an encoded index is a natural number.
Encoder and finder are tournaments over the lines padded to a power of two, and what
is proved of them comes from there: whatever is granted was requested
(`SimpleArbiter.request_of_grantValid`), the grants take turns
(`SimpleArbiter.turn_of_grantValid`), and whatever is found is valid and a maximum
(`MaxFinderTree.masked_maxPtr`, `MaxFinderTree.masked_le_maxVal`).
-/
namespace Rosebud

/-- `$clog2`. -/
def clog2 (n : Nat) : Nat := if n ≤ 1 then 0 else (n - 1).log2 + 1

theorem le_two_pow_clog2 (n : Nat) : n ≤ 2 ^ clog2 n := by
  unfold clog2
  split
  · simpa using ‹n ≤ 1›
  · have := Nat.lt_log2_self (n := n - 1)
    omega

theorem two_pow_clog2_two_pow (w : Nat) : 2 ^ clog2 (2 ^ w) = 2 ^ w := by
  cases w with
  | zero => rfl
  | succ w =>
    have hpos : 1 ≤ 2 ^ w := Nat.one_le_two_pow
    have hlog : (2 ^ (w + 1) - 1).log2 = w := by
      rw [Nat.log2_eq_iff (by omega)]
      omega
    rw [clog2, if_neg (by omega), hlog]

theorem clog2_pos {n : Nat} (h : 1 < n) : 0 < clog2 n := by
  unfold clog2
  rw [if_neg (by omega)]
  exact Nat.succ_pos _

/-- A vector, continued with a constant. -/
def padded {α : Type} {n : Nat} (pad : α) (x : Fin n → α) (i : Nat) : α :=
  if h : i < n then x ⟨i, h⟩ else pad

theorem padded_of_lt {α : Type} {n : Nat} {pad : α} {x : Fin n → α} {i : Nat} (h : i < n) :
    padded pad x i = x ⟨i, h⟩ := dif_pos h

@[simp] theorem padded_val {α : Type} {n : Nat} (pad : α) (x : Fin n → α) (i : Fin n) :
    padded pad x i = x i := padded_of_lt i.isLt

theorem lt_of_padded_ne {α : Type} {n : Nat} {pad : α} {x : Fin n → α} {i : Nat}
    (h : padded pad x i ≠ pad) : i < n := by
  by_contra hn
  exact h (dif_neg hn)

/-! ## `priority_encoder` -/

namespace PriorityEncoder
variable {n : Nat} (x : Fin n → Bool)

def levels (n : Nat) : Nat := if 2 < n then clog2 n else 1

/-- Of two lines the upper one is passed on if the lower one is not set. -/
def upperWins (_ lower : Bool) : Bool := !lower

def outputValid : Bool := (Tournament.play upperWins (padded false x) (levels n) 0).1

def outputEncoded : Nat := (Tournament.play upperWins (padded false x) (levels n) 0).2

def outputUnencoded (i : Fin n) : Bool := decide (i.val = outputEncoded x)

/-- `LSB_HIGH_PRIORITY = 0`: of two lines the upper one is passed on if it is set. -/
def upperSet (upper _ : Bool) : Bool := upper

def outputValidHigh : Bool := (Tournament.play upperSet (padded false x) (levels n) 0).1

def outputEncodedHigh : Nat := (Tournament.play upperSet (padded false x) (levels n) 0).2

theorem upperWins_consistent : Tournament.Consistent upperWins where
  trans := fun _ _ _ _ h => h
  negTrans := fun _ _ _ _ h => h

theorem le_two_pow_levels : n ≤ 2 ^ levels n := by
  unfold levels
  split
  · exact le_two_pow_clog2 n
  · omega

variable {x}

/-- Whatever the priorities, a valid output names a line that is set. -/
theorem input_of_play {beats : Bool → Bool → Bool}
    (h : (Tournament.play beats (padded false x) (levels n) 0).1 = true) :
    ∃ hlt : (Tournament.play beats (padded false x) (levels n) 0).2 < n,
      x ⟨(Tournament.play beats (padded false x) (levels n) 0).2, hlt⟩ = true := by
  rw [Tournament.play_value, Nat.zero_add] at h
  have hlt := lt_of_padded_ne (by rw [h]; exact Bool.noConfusion)
  rw [padded_of_lt hlt] at h
  exact ⟨hlt, h⟩

theorem outputValid_eq : outputValid x = padded false x (outputEncoded x) := by
  have h := Tournament.play_value upperWins (padded false x) (levels n) 0
  rwa [Nat.zero_add] at h

theorem outputEncoded_lt (h : outputValid x = true) : outputEncoded x < n :=
  (input_of_play h).1

/-- The encoded line is set. -/
theorem input_outputEncoded (h : outputValid x = true) :
    x ⟨outputEncoded x, outputEncoded_lt h⟩ = true :=
  (input_of_play h).2

/-- No line below the encoded one is set. -/
theorem input_of_lt_outputEncoded {i : Fin n} (hi : i.val < outputEncoded x) : x i = false := by
  have h := Tournament.beats_of_lt upperWins_consistent hi
  simpa [upperWins] using h

/-- Without a valid output no line is set. -/
theorem input_of_not_outputValid (h : outputValid x = false) (i : Fin n) : x i = false := by
  have henc : padded false x (outputEncoded x) = false := outputValid_eq.symm.trans h
  rcases Nat.lt_trichotomy i.val (outputEncoded x) with hlt | heq | hgt
  · exact input_of_lt_outputEncoded hlt
  · rwa [← heq, padded_val] at henc
  · have hnot := Tournament.not_beats_of_gt upperWins_consistent
      (Nat.lt_of_lt_of_le i.isLt le_two_pow_levels) hgt
    have hplay : (Tournament.play upperWins (padded false x) (levels n) 0).1 = false := h
    rw [hplay] at hnot
    exact absurd hnot Bool.noConfusion

/-! ### What an encoder does -/

/-- Of the lines that are set, the one at the lowest place is named; without one the output is
not valid. -/
structure Chooses (place : Fin n → Nat) (x : Fin n → Bool) (valid : Bool) (g : Nat) : Prop where
  named : valid = true →
    ∃ hlt : g < n, x ⟨g, hlt⟩ = true ∧ ∀ i, x i = true → place ⟨g, hlt⟩ ≤ place i
  none : valid = false → ∀ i, x i = false

theorem chooses_low : Chooses Fin.val x (outputValid x) (outputEncoded x) where
  named := by
    intro h
    obtain ⟨hlt, hset⟩ := input_of_play h
    refine ⟨hlt, hset, fun i hi => ?_⟩
    by_contra hge
    have hno := input_of_lt_outputEncoded (Nat.lt_of_not_le hge)
    exact absurd (hi.symm.trans hno) Bool.true_eq_false.mp
  none := input_of_not_outputValid

theorem upperSet_consistent : Tournament.Consistent upperSet where
  trans := fun _ _ _ h _ => h
  negTrans := fun _ _ _ h _ => h

/-- No line above the encoded one is set, if high lines come first. -/
theorem input_of_outputEncodedHigh_lt {i : Fin n} (hi : outputEncodedHigh x < i.val) :
    x i = false := by
  have h := Tournament.not_beats_of_gt upperSet_consistent
    (Nat.lt_of_lt_of_le i.isLt le_two_pow_levels) hi
  rw [Nat.zero_add, padded_val] at h
  exact h

/-- The place of a line if high lines come first. -/
def fromTop (i : Fin n) : Nat := n - 1 - i.val

theorem chooses_high : Chooses fromTop x (outputValidHigh x) (outputEncodedHigh x) where
  named := by
    intro h
    obtain ⟨hlt, hset⟩ := input_of_play h
    refine ⟨hlt, hset, fun i hi => ?_⟩
    by_contra hge
    have hgt : outputEncodedHigh x < i.val := by
      change ¬ n - 1 - outputEncodedHigh x ≤ n - 1 - i.val at hge
      omega
    have hno := input_of_outputEncodedHigh_lt hgt
    exact absurd (hi.symm.trans hno) Bool.true_eq_false.mp
  none := by
    intro h i
    have henc : padded false x (outputEncodedHigh x) = false := by
      have hv := Tournament.play_value upperSet (padded false x) (levels n) 0
      rw [Nat.zero_add] at hv
      exact hv.symm.trans h
    rcases Nat.lt_trichotomy i.val (outputEncodedHigh x) with hlt | heq | hgt
    · -- the line named beats the ones below it only if it is set
      have hbeats := Tournament.beats_of_lt upperSet_consistent hlt
      exact absurd (h.symm.trans hbeats) Bool.false_ne_true
    · rwa [← heq, padded_val] at henc
    · exact input_of_outputEncodedHigh_lt hgt

end PriorityEncoder

/-! ## `simple_arbiter` -/

/-- The ports that come after the last one granted. -/
structure SimpleArbiter (n : Nat) where
  mask : Fin n → Bool
deriving Inhabited

namespace SimpleArbiter
variable {n : Nat} (s : SimpleArbiter n) (request : Fin n → Bool)

def maskedRequest : Fin n → Bool := fun i => request i && s.mask i

def maskedRequestValid : Bool := PriorityEncoder.outputValid (s.maskedRequest request)

def grantValid : Bool :=
  if s.maskedRequestValid request then s.maskedRequestValid request
  else PriorityEncoder.outputValid request

def grantEncoded : Nat :=
  if s.maskedRequestValid request then PriorityEncoder.outputEncoded (s.maskedRequest request)
  else PriorityEncoder.outputEncoded request

/-- The mask after the clock edge: all ones shifted left past the port granted. -/
def next (taken : Bool) : SimpleArbiter n where
  mask :=
    if s.grantValid request && taken then fun i => decide (s.grantEncoded request + 1 ≤ i.val)
    else s.mask

variable {s request}

/-- **What is granted was requested.** -/
theorem request_of_grantValid (h : s.grantValid request = true) :
    ∃ hlt : s.grantEncoded request < n, request ⟨s.grantEncoded request, hlt⟩ = true := by
  unfold grantValid at h
  unfold grantEncoded
  split at h
  · have hm := PriorityEncoder.input_outputEncoded h
    have hlt := PriorityEncoder.outputEncoded_lt h
    simp only [if_pos h]
    exact ⟨hlt, (Bool.and_eq_true_iff.mp hm).1⟩
  · rename_i hmask
    simp only [if_neg hmask]
    exact ⟨PriorityEncoder.outputEncoded_lt h, PriorityEncoder.input_outputEncoded h⟩

/-! ### Turns -/

/-- The mask lets the ports from `t` on through. -/
def From (s : SimpleArbiter n) (t : Nat) : Prop := t ≤ n ∧ ∀ i, s.mask i = decide (t ≤ i.val)

theorem from_of_clear (h : ∀ i, s.mask i = false) : s.From n :=
  ⟨Nat.le_refl n, fun i => by rw [h, decide_eq_false (Nat.not_le.mpr i.isLt)]⟩

/-- Masked requests before the others, and of each the one at the lowest place: the first one
from the pointer on. -/
theorem turn_of_chooses {place : Fin n → Nat} {t : Nat} {valid valid' : Bool} {g g' : Nat}
    (hplace : ∀ i, place i < n) (hmask : ∀ i, s.mask i = decide (t ≤ place i))
    (hm : PriorityEncoder.Chooses place (s.maskedRequest request) valid g)
    (hr : PriorityEncoder.Chooses place request valid' g')
    (h : (if valid then valid else valid') = true) :
    ∃ hlt : (if valid then g else g') < n,
      RoundRobin.Turn n place t request ⟨if valid then g else g', hlt⟩ := by
  have hmasked : ∀ i, s.maskedRequest request i = (request i && decide (t ≤ place i)) :=
    fun i => congrArg (request i && ·) (hmask i)
  cases hv : valid with
  | true =>
    obtain ⟨hlt, hset, hmin⟩ := hm.named hv
    rw [hmasked, Bool.and_eq_true, decide_eq_true_eq] at hset
    refine ⟨hlt, RoundRobin.turn_of_front hset.1 (hplace _) hset.2 fun i hi hti => hmin i ?_⟩
    rw [hmasked, hi, Bool.true_and]
    exact decide_eq_true hti
  | false =>
    rw [hv] at h
    obtain ⟨hlt, hset, hmin⟩ := hr.named h
    refine ⟨hlt, RoundRobin.turn_of_wrap hset (fun i hi => ?_) hmin⟩
    have hno := hm.none hv i
    rw [hmasked, hi, Bool.true_and, decide_eq_false_iff_not] at hno
    exact Nat.lt_of_not_le hno

/-- **The grants take turns.** -/
theorem turn_of_grantValid {t : Nat} (hs : s.From t) (h : s.grantValid request = true)
    (hlt : s.grantEncoded request < n) :
    RoundRobin.Turn n Fin.val t request ⟨s.grantEncoded request, hlt⟩ := by
  obtain ⟨_, hturn⟩ := turn_of_chooses (fun i => i.isLt) hs.2 PriorityEncoder.chooses_low
    PriorityEncoder.chooses_low h
  exact hturn

/-- The pointer moves behind the port granted. -/
theorem From.next {t : Nat} (hs : s.From t) (taken : Bool) :
    (s.next request taken).From
      (if s.grantValid request && taken then s.grantEncoded request + 1 else t) := by
  cases hv : s.grantValid request && taken with
  | false => simpa [SimpleArbiter.next, From, hv] using hs
  | true =>
    obtain ⟨hlt, -⟩ := request_of_grantValid (Bool.and_eq_true_iff.mp hv).1
    refine ⟨hlt, fun i => ?_⟩
    simp [SimpleArbiter.next, hv]

/-! ### High ports first -/

variable (s request) in
def maskedRequestValidHigh : Bool := PriorityEncoder.outputValidHigh (s.maskedRequest request)

variable (s request) in
def grantValidHigh : Bool :=
  if s.maskedRequestValidHigh request then s.maskedRequestValidHigh request
  else PriorityEncoder.outputValidHigh request

variable (s request) in
def grantEncodedHigh : Nat :=
  if s.maskedRequestValidHigh request then
    PriorityEncoder.outputEncodedHigh (s.maskedRequest request)
  else PriorityEncoder.outputEncodedHigh request

variable (s request) in
/-- One bit, shifted to the port granted. -/
def grantHigh (i : Fin n) : Bool := decide (i.val = s.grantEncodedHigh request)

variable (s request) in
/-- The mask after the clock edge: all ones shifted right, so that the ports below the
one granted are left. -/
def nextHigh (taken : Bool) : SimpleArbiter n where
  mask :=
    if s.grantValidHigh request && taken then fun i => decide (i.val < s.grantEncodedHigh request)
    else s.mask

/-- **What is granted was requested**, also with high ports first. -/
theorem request_of_grantValidHigh (h : s.grantValidHigh request = true) :
    ∃ hlt : s.grantEncodedHigh request < n,
      request ⟨s.grantEncodedHigh request, hlt⟩ = true := by
  unfold grantValidHigh at h
  unfold grantEncodedHigh
  split at h
  · obtain ⟨hlt, hm⟩ := PriorityEncoder.input_of_play h
    simp only [if_pos h]
    exact ⟨hlt, (Bool.and_eq_true_iff.mp hm).1⟩
  · rename_i hmask
    simp only [if_neg hmask]
    exact PriorityEncoder.input_of_play h

/-! ### Either order

`ARB_LSB_HIGH_PRIORITY` as a parameter. -/

variable (lsbFirst : Bool)

variable (s request) in
def grantValidBy : Bool := if lsbFirst then s.grantValid request else s.grantValidHigh request

variable (s request) in
def grantEncodedBy : Nat := if lsbFirst then s.grantEncoded request else s.grantEncodedHigh request

variable (s request) in
def nextBy (taken : Bool) : SimpleArbiter n :=
  if lsbFirst then s.next request taken else s.nextHigh request taken

/-- The order of the ports. -/
def place (i : Fin n) : Nat := if lsbFirst then i.val else PriorityEncoder.fromTop i

theorem place_lt (i : Fin n) : place lsbFirst i < n := by
  unfold place PriorityEncoder.fromTop
  split <;> omega

theorem place_injective {i k : Fin n} (h : place lsbFirst i = place lsbFirst k) : i = k := by
  unfold place PriorityEncoder.fromTop at h
  apply Fin.ext
  split at h <;> omega

variable {lsbFirst}

theorem request_of_grantValidBy (h : s.grantValidBy request lsbFirst = true) :
    ∃ hlt : s.grantEncodedBy request lsbFirst < n,
      request ⟨s.grantEncodedBy request lsbFirst, hlt⟩ = true := by
  cases lsbFirst with
  | true => exact request_of_grantValid h
  | false => exact request_of_grantValidHigh h

/-- A request is answered with a grant. -/
theorem grantValidBy_of_request {i : Fin n} (hi : request i = true) :
    s.grantValidBy request lsbFirst = true := by
  have hany : ∀ {place : Fin n → Nat} {valid valid' : Bool} {g : Nat},
      PriorityEncoder.Chooses place request valid' g →
        (if valid then valid else valid') = true := by
    intro place valid valid' g hr
    cases valid with
    | true => rfl
    | false =>
      by_contra hno
      exact absurd (hi.symm.trans (hr.none (Bool.eq_false_iff.mpr hno) i)) Bool.true_eq_false.mp
  cases lsbFirst with
  | true => exact hany PriorityEncoder.chooses_low
  | false => exact hany PriorityEncoder.chooses_high

variable (lsbFirst) in
/-- The mask lets the ports from the place `t` on through. -/
def Pointer (s : SimpleArbiter n) (t : Nat) : Prop :=
  t ≤ n ∧ ∀ i, s.mask i = decide (t ≤ place lsbFirst i)

theorem pointer_of_clear (h : ∀ i, s.mask i = false) : s.Pointer lsbFirst n :=
  ⟨Nat.le_refl n, fun i => by
    rw [h, decide_eq_false (Nat.not_le.mpr (place_lt lsbFirst i))]⟩

/-- **The grants take turns**, in either order. -/
theorem turn_of_grantValidBy {t : Nat} (hs : s.Pointer lsbFirst t)
    (h : s.grantValidBy request lsbFirst = true) (hlt : s.grantEncodedBy request lsbFirst < n) :
    RoundRobin.Turn n (place lsbFirst) t request ⟨s.grantEncodedBy request lsbFirst, hlt⟩ := by
  cases lsbFirst with
  | true => exact turn_of_grantValid hs h hlt
  | false =>
    obtain ⟨_, hturn⟩ := turn_of_chooses (place_lt false) hs.2 PriorityEncoder.chooses_high
      PriorityEncoder.chooses_high h
    exact hturn

/-- The pointer moves behind the port granted. -/
theorem Pointer.next {t : Nat} (hs : s.Pointer lsbFirst t) (taken : Bool) :
    (¬ (s.grantValidBy request lsbFirst && taken) = true ∧
        (s.nextBy request lsbFirst taken).Pointer lsbFirst t) ∨
      ((s.grantValidBy request lsbFirst && taken) = true ∧
        ∃ hlt : s.grantEncodedBy request lsbFirst < n, (s.nextBy request lsbFirst taken).Pointer
          lsbFirst (place lsbFirst ⟨s.grantEncodedBy request lsbFirst, hlt⟩ + 1)) := by
  cases hv : s.grantValidBy request lsbFirst && taken with
  | false =>
    have hmask : (s.nextBy request lsbFirst taken).mask = s.mask := by
      cases lsbFirst with
      | true =>
        have hv' : (s.grantValid request && taken) = false := hv
        exact if_neg (Bool.not_eq_true _ ▸ hv')
      | false =>
        have hv' : (s.grantValidHigh request && taken) = false := hv
        exact if_neg (Bool.not_eq_true _ ▸ hv')
    exact .inl ⟨Bool.false_ne_true, hs.1, fun i => (congrFun hmask i).trans (hs.2 i)⟩
  | true =>
    obtain ⟨hlt, -⟩ := request_of_grantValidBy (Bool.and_eq_true_iff.mp hv).1
    refine .inr ⟨rfl, hlt, place_lt lsbFirst _, fun i => ?_⟩
    cases lsbFirst with
    | true =>
      change (s.next request taken).mask i = decide (s.grantEncoded request + 1 ≤ i.val)
      have hv' : (s.grantValid request && taken) = true := hv
      rw [SimpleArbiter.next, if_pos hv']
    | false =>
      have hv' : (s.grantValidHigh request && taken) = true := hv
      have hlt' : s.grantEncodedHigh request < n := hlt
      change (s.nextHigh request taken).mask i =
        decide (n - 1 - s.grantEncodedHigh request + 1 ≤ n - 1 - i.val)
      rw [nextHigh, if_pos hv']
      exact decide_eq_decide.mpr ⟨fun hi => by omega, fun hi => by omega⟩

end SimpleArbiter

/-! ## `arbiter` -/

structure Arbiter (n : Nat) where
  grantReg : Fin n → Bool
  grantValidReg : Bool
  grantEncodedReg : Nat
  maskReg : Fin n → Bool
deriving Inhabited

namespace Arbiter
variable {n : Nat} (arbBlock : Bool) (s : Arbiter n) (request acknowledge : Fin n → Bool)

def reset : Arbiter n := ⟨fun _ => false, false, 0, fun _ => false⟩

def maskedRequest : Fin n → Bool := fun i => request i && s.maskReg i

/-- The registers after granting the port an encoder names. -/
def granted (x : Fin n → Bool) : Arbiter n where
  grantReg := PriorityEncoder.outputUnencoded x
  grantValidReg := true
  grantEncodedReg := PriorityEncoder.outputEncoded x
  maskReg := fun i => decide (PriorityEncoder.outputEncoded x + 1 ≤ i.val)

/-- The registers after the clock edge, outside reset; with `ARB_BLOCK` a grant stays
until it is acknowledged. -/
def next : Arbiter n :=
  if arbBlock && s.grantValidReg && !decide (∃ i, (s.grantReg i && acknowledge i) = true) then s
  else if PriorityEncoder.outputValid request then
    if PriorityEncoder.outputValid (s.maskedRequest request) then
      granted (s.maskedRequest request)
    else granted request
  else { reset with maskReg := s.maskReg }

/-- The one-hot and the encoded grant name the same port. -/
structure OneHot (s : Arbiter n) : Prop where
  grantReg : ∀ i, s.grantReg i = (s.grantValidReg && decide (i.val = s.grantEncodedReg))
  lt : s.grantValidReg = true → s.grantEncodedReg < n

theorem oneHot_reset : (reset : Arbiter n).OneHot :=
  ⟨fun _ => rfl, fun h => absurd h Bool.false_ne_true⟩

/-- What a cycle does: a blocked grant stays until it is acknowledged, and then one of the
requests is granted, or none without a request. -/
theorem next_cases :
    (arbBlock = true ∧ s.grantValidReg = true ∧
      (∀ i, s.grantReg i = true → acknowledge i = false) ∧
      s.next arbBlock request acknowledge = s) ∨
    ((arbBlock = true → s.grantValidReg = true → ∃ i, s.grantReg i = true ∧ acknowledge i = true) ∧
      ((∃ x : Fin n → Bool, (∀ i, x i = true → request i = true) ∧
        PriorityEncoder.outputValid x = true ∧
        s.next arbBlock request acknowledge = granted x) ∨
      (∀ i, request i = false) ∧
        s.next arbBlock request acknowledge = { reset with maskReg := s.maskReg })) := by
  unfold next
  split
  · rename_i hblock
    simp only [Bool.and_eq_true, Bool.not_eq_true', decide_eq_false_iff_not, not_exists] at hblock
    obtain ⟨⟨hb, hv⟩, hno⟩ := hblock
    refine .inl ⟨hb, hv, fun i hi => ?_, rfl⟩
    simpa [hi] using hno i
  · rename_i hblock
    refine .inr ⟨fun hb hv => ?_, ?_⟩
    · simpa [hb, hv] using hblock
    · split
      · rename_i hv
        split
        · rename_i hm
          exact .inl ⟨_, fun i hi => (Bool.and_eq_true_iff.mp hi).1, hm, rfl⟩
        · exact .inl ⟨_, fun _ hi => hi, hv, rfl⟩
      · rename_i hv
        exact .inr ⟨PriorityEncoder.input_of_not_outputValid (Bool.not_eq_true _ ▸ hv), rfl⟩

variable {arbBlock s request acknowledge}

theorem OneHot.next (h : s.OneHot) : (s.next arbBlock request acknowledge).OneHot := by
  rcases next_cases arbBlock s request acknowledge with
    ⟨-, -, -, heq⟩ | ⟨-, ⟨x, -, hv, heq⟩ | ⟨-, heq⟩⟩
  · rwa [heq]
  · rw [heq]
    exact ⟨fun _ => rfl,
      fun _ => PriorityEncoder.outputEncoded_lt hv⟩
  · rw [heq]
    exact ⟨fun _ => rfl, fun hv => absurd hv Bool.false_ne_true⟩

variable (s request acknowledge) in
/-- Without `ARB_BLOCK` a port is granted only one cycle after its request. -/
theorem request_of_grant_next {i : Fin n}
    (h : (s.next false request acknowledge).grantReg i = true) : request i = true := by
  rcases next_cases false s request acknowledge with ⟨hb, -⟩ | ⟨-, ⟨x, hx, hv, heq⟩ | ⟨-, heq⟩⟩
  · exact absurd hb Bool.false_ne_true
  · rw [heq] at h
    obtain rfl : i = ⟨_, PriorityEncoder.outputEncoded_lt hv⟩ := Fin.ext (of_decide_eq_true h)
    exact hx _ (PriorityEncoder.input_outputEncoded hv)
  · rw [heq] at h
    exact absurd h Bool.false_ne_true

end Arbiter

/-! ## `max_finder_tree` -/

namespace MaxFinderTree
variable {n w : Nat} (values : Fin n → BitVec w) (valids : Fin n → Bool)

def maskedValues (i : Fin n) : BitVec w := if !valids i then 0 else values i

def greaterThan (inpA inpB : BitVec w) : Bool := decide (inpB < inpA)

def maxVal : BitVec w :=
  (Tournament.play greaterThan (padded 0 (maskedValues values valids)) (clog2 n) 0).1

def maxPtr : Nat :=
  (Tournament.play greaterThan (padded 0 (maskedValues values valids)) (clog2 n) 0).2

def maxValid : Bool := decide (∃ i, maskedValues values valids i ≠ 0)

theorem greaterThan_consistent : Tournament.Consistent (greaterThan : BitVec w → _) where
  trans := by
    simp only [greaterThan, decide_eq_true_eq, BitVec.lt_def]
    omega
  negTrans := by
    simp only [greaterThan, decide_eq_false_iff_not, BitVec.lt_def]
    omega

variable {values valids}

theorem maxVal_eq :
    maxVal values valids = padded 0 (maskedValues values valids) (maxPtr values valids) := by
  have h := Tournament.play_value greaterThan (padded 0 (maskedValues values valids)) (clog2 n) 0
  rwa [Nat.zero_add] at h

/-- No masked value exceeds the one found. -/
theorem masked_le_maxVal (i : Fin n) : maskedValues values valids i ≤ maxVal values valids := by
  rcases Nat.lt_trichotomy i.val (maxPtr values valids) with hlt | heq | hgt
  · have h := Tournament.beats_of_lt greaterThan_consistent hlt
    rw [Nat.zero_add, padded_val, greaterThan, decide_eq_true_eq] at h
    exact Nat.le_of_lt h
  · rw [maxVal_eq, ← heq, padded_val]
    exact Nat.le_refl _
  · have h := Tournament.not_beats_of_gt greaterThan_consistent
      (Nat.lt_of_lt_of_le i.isLt (le_two_pow_clog2 n)) hgt
    rw [Nat.zero_add, padded_val, greaterThan, decide_eq_false_iff_not] at h
    exact Nat.le_of_not_lt h

/-- The place found is a valid port with a value other than zero. -/
theorem masked_maxPtr (h : maxValid values valids = true) :
    ∃ hlt : maxPtr values valids < n,
      valids ⟨maxPtr values valids, hlt⟩ = true ∧ values ⟨maxPtr values valids, hlt⟩ ≠ 0 := by
  obtain ⟨i, hi⟩ := of_decide_eq_true h
  have hne : padded 0 (maskedValues values valids) (maxPtr values valids) ≠ 0 := by
    intro hz
    have hle : maskedValues values valids i ≤ maxVal values valids := masked_le_maxVal i
    rw [maxVal_eq, hz] at hle
    exact hi (BitVec.le_zero_iff.mp hle)
  have hlt := lt_of_padded_ne hne
  rw [padded_of_lt hlt, maskedValues] at hne
  refine ⟨hlt, ?_⟩
  split at hne
  · exact absurd rfl hne
  · rename_i hv
    exact ⟨by simpa using hv, hne⟩

/-- No valid port has a larger value than the one found. -/
theorem le_value_maxPtr (hlt : maxPtr values valids < n) {i : Fin n} (hi : valids i = true) :
    values i ≤ values ⟨maxPtr values valids, hlt⟩ := by
  have hle : maskedValues values valids i ≤ maxVal values valids := masked_le_maxVal i
  have hmax : maskedValues values valids ⟨maxPtr values valids, hlt⟩ ≤
      values ⟨maxPtr values valids, hlt⟩ := by
    unfold maskedValues
    split
    · simp [BitVec.le_def]
    · exact BitVec.le_refl _
  rw [maskedValues, hi, maxVal_eq, padded_of_lt hlt] at hle
  exact BitVec.le_trans hle hmax

end MaxFinderTree

end Rosebud
