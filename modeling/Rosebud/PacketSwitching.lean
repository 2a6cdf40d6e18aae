import Mathlib.Algebra.BigOperators.Ring.Finset
import Mathlib.Algebra.Order.BigOperators.Group.Finset
import Rosebud.AxiStream
import Rosebud.Clocked
import Rosebud.SimpleAxisSwitch

/-! # Packets through `simple_axis_switch`

The switch between senders that offer the words of their streams when they like and receivers
that are ready when they like.  Four logs say what happened: the words each input accepted
and handed on, the words each output took (with the input they came from) and put out.

What was handed on is cut into packets by its last marks.  `Packets` ties the packet that an
input is in the middle of to the output that is busy with it; from this every output carries
whole packets one after the other, and those of an input in their order.

A packet that waits for an output comes nearer to the pointer of its arbiter with every packet
of another input that starts there.
-/
namespace Rosebud.SimpleAxisSwitch
open Clocked AxiStream RoundRobin

variable {P : Config} {α : Type}

/-! ## The streams -/

/-- `tdest` is constant within a packet and selects an output that exists. -/
structure Steady (ws : List (Word P α)) : Prop where
  chain : ws.IsChain fun a b => a.tlast = false → b.tdest = a.tdest
  select_lt : ∀ w ∈ ws, select w < P.mCount

/-- The packets that are complete. -/
def full (ws : List (Word P α)) : List (List (Word P α)) := (cut Word.tlast ws).1

/-- The words of a packet of which the last one is missing. -/
def part (ws : List (Word P α)) : List (Word P α) := (cut Word.tlast ws).2

/-- The packet goes to the output. -/
def toOutput (n : Fin P.mCount) (packet : List (Word P α)) : Bool :=
  packet.all fun w => decide (select w = n.val)

/-- The words of a packet, with the input they come from. -/
def tagged (x : Fin P.sCount × List (Word P α)) : List (Fin P.sCount × Word P α) :=
  x.2.map fun w => (x.1, w)

section Cut
variable {ws tl : List (Word P α)} {w : Word P α}

theorem full_of_last (h : w.tlast = true) :
    full (ws ++ [w]) = full ws ++ [part ws ++ [w]] ∧ part (ws ++ [w]) = [] := by
  unfold full part
  rw [cut_append_singleton, if_pos h]
  exact ⟨rfl, rfl⟩

theorem full_of_not_last (h : w.tlast = false) :
    full (ws ++ [w]) = full ws ∧ part (ws ++ [w]) = part ws ++ [w] := by
  unfold full part
  rw [cut_append_singleton, if_neg (by rw [h]; exact Bool.false_ne_true)]
  exact ⟨rfl, rfl⟩

/-- A word in the middle of a packet goes where the packet goes. -/
theorem Steady.select_eq (h : Steady (ws ++ w :: tl)) (hpart : part ws ≠ []) :
    ∃ y ∈ part ws, select w = select y := by
  rcases List.eq_nil_or_concat (part ws) with hnil | ⟨init, y, hy⟩
  · exact absurd hnil hpart
  · rw [List.concat_eq_append] at hy
    have hmem : y ∈ part ws := by rw [hy]; simp
    have hlast : y.tlast = false := unmarked_cut ws y hmem
    have hws : ws = (full ws).flatten ++ init ++ [y] := by
      rw [List.append_assoc, ← hy]
      exact (flatten_cut ws).symm
    have hrel := (List.isChain_append.mp h.chain).2.2 y (by rw [hws]; simp) w rfl hlast
    exact ⟨y, hmem, by rw [select, select, hrel]⟩

end Cut

/-! ## The switch and its surroundings -/

/-- A cycle: which senders offer a word, what is on the wires of the others, and which
receivers are ready. -/
structure Cycle (P : Config) (α : Type) where
  offer : Fin P.sCount → Bool
  wires : Fin P.sCount → Word P α
  mAxisTready : Fin P.mCount → Bool

structure Bench (P : Config) (α : Type) where
  regs : Regs P α
  pending : Fin P.sCount → List (Word P α)
  accepted : Fin P.sCount → List (Word P α)
  handed : Fin P.sCount → List (Word P α)
  passed : Fin P.mCount → List (Fin P.sCount × Word P α)
  out : Fin P.mCount → List (Word P α)

def Bench.inputs (b : Bench P α) (c : Cycle P α) : Inputs P α where
  sAxisTvalid m := (bus (b.pending m) (c.offer m) (c.wires m)).1
  sAxis m := (bus (b.pending m) (c.offer m) (c.wires m)).2
  mAxisTready := c.mAxisTready

def Bench.step [Inhabited α] (b : Bench P α) (c : Cycle P α) : Bench P α where
  regs := next b.regs (b.inputs c)
  pending m := rest (b.pending m)
    ((b.inputs c).sAxisTvalid m && sAxisTready b.regs (b.inputs c) m)
  accepted m := b.accepted m ++ accepts b.regs (b.inputs c) m
  handed m := b.handed m ++ handsOn b.regs (b.inputs c) m
  passed n := b.passed n ++ passes b.regs (b.inputs c) n
  out n := b.out n ++ sends b.regs (b.inputs c) n

/-- Out of reset, with the words to be sent. -/
structure Bench.Start (b : Bench P α) : Prop where
  fresh : Fresh b.regs
  accepted : ∀ m, b.accepted m = []
  handed : ∀ m, b.handed m = []
  passed : ∀ n, b.passed n = []
  out : ∀ n, b.out n = []

/-- The words in the register of an input. -/
def Bench.sHeld (b : Bench P α) (m : Fin P.sCount) : List (Word P α) :=
  (b.regs.sReg m).contents P.sRegType

/-- The words in the register of an output. -/
def Bench.mHeld (b : Bench P α) (n : Fin P.mCount) : List (Word P α) :=
  (b.regs.outputs n).reg.contents P.mRegType

/-- **No word is lost, repeated or sent elsewhere.** -/
structure Conserves (stream : Fin P.sCount → List (Word P α)) (b : Bench P α) : Prop where
  stream : ∀ m, b.accepted m ++ b.pending m = stream m
  accepted : ∀ m, b.accepted m = b.handed m ++ b.sHeld m
  passed : ∀ n, (b.passed n).map Prod.snd = b.out n ++ b.mHeld n
  handed : ∀ m n, ((b.passed n).filter fun x => decide (x.1 = m)).map Prod.snd =
    (b.handed m).filter fun w => decide (select w = n.val)

/-- The register stages are in order. -/
structure Registered (b : Bench P α) : Prop where
  sReg : ∀ m, (b.regs.sReg m).Valid P.sRegType
  reg : ∀ n, (b.regs.outputs n).reg.Valid P.mRegType

section Conserve
variable {stream : Fin P.sCount → List (Word P α)} {b : Bench P α} {c : Cycle P α}
  {m : Fin P.sCount} {w : Word P α}

theorem Bench.Start.conserves (h : b.Start) : Conserves b.pending b where
  stream m := by rw [h.accepted]; rfl
  accepted m := by
    rw [h.accepted, h.handed, Bench.sHeld, (h.fresh.sReg m).contents_eq]
    rfl
  passed n := by
    rw [h.passed, h.out, Bench.mHeld, (h.fresh.reg n).contents_eq]
    rfl
  handed m n := by
    rw [h.passed, h.handed]
    rfl

theorem Bench.Start.registered (h : b.Start) : Registered b where
  sReg m := (h.fresh.sReg m).valid
  reg n := (h.fresh.reg n).valid

/-- The word an input puts in front of the outputs is the next one of its stream. -/
theorem Conserves.front (h : Conserves stream b)
    (hv : intSAxisTvalid b.regs (b.inputs c) m = true) :
    ∃ tl, b.handed m ++ intSAxis b.regs (b.inputs c) m :: tl = stream m := by
  obtain ⟨tl, htl⟩ : ∃ tl, b.sHeld m ++ b.pending m = intSAxis b.regs (b.inputs c) m :: tl := by
    obtain ⟨tl, htl⟩ := List.head?_eq_some_iff.mp (PipeRegister.dout_mem hv)
    change b.sHeld m ++ (if (bus (b.pending m) (c.offer m) (c.wires m)).1 then
      [(bus (b.pending m) (c.offer m) (c.wires m)).2] else []) = _ at htl
    rcases bus_cases (b.pending m) (c.offer m) (c.wires m) with hbus | ⟨x, xs, hpend, -, hbus⟩
    · rw [hbus, if_neg Bool.false_ne_true, List.append_nil] at htl
      exact ⟨tl ++ b.pending m, by rw [htl]; rfl⟩
    · rw [hbus, if_pos rfl] at htl
      refine ⟨tl ++ xs, ?_⟩
      rw [hpend, ← List.singleton_append, ← List.append_assoc, htl]
      rfl
  refine ⟨tl, ?_⟩
  rw [← h.stream m, h.accepted m, List.append_assoc, htl]

variable [Inhabited α]

theorem Bench.pending_step (b : Bench P α) (c : Cycle P α) (m : Fin P.sCount) :
    b.pending m = accepts b.regs (b.inputs c) m ++ (b.step c).pending m := by
  exact taken_append_rest fun h => (Bool.and_eq_true_iff.mp h).1

theorem Registered.step (h : Registered b) (c : Cycle P α) : Registered (b.step c) where
  sReg m := (h.sReg m).next _
  reg n := (h.reg n).next _

theorem Conserves.step (h : Conserves stream b) (hr : Registered b) (c : Cycle P α) :
    Conserves stream (b.step c) where
  stream m := by
    rw [← h.stream m, b.pending_step c m]
    exact List.append_assoc _ _ _
  accepted m := by
    have hcons := sReg_conservation (i := b.inputs c) (hr.sReg m)
    change b.accepted m ++ _ = (b.handed m ++ _) ++ _
    rw [h.accepted m, List.append_assoc, List.append_assoc]
    exact congrArg _ hcons
  passed n := by
    have hcons := reg_conservation (i := b.inputs c) (hr.reg n)
    change (b.passed n ++ _).map Prod.snd = (b.out n ++ _) ++ _
    rw [List.map_append, h.passed n, List.append_assoc, List.append_assoc]
    exact congrArg _ hcons
  handed m n := by
    change ((b.passed n ++ _).filter _).map Prod.snd = (b.handed m ++ _).filter _
    rw [List.filter_append, List.map_append, h.handed m n, List.filter_append, filter_passes]

/-- A word that is handed on is the next one of its stream. -/
theorem Conserves.next_word (h : Conserves stream b)
    (hw : handsOn b.regs (b.inputs c) m = [w]) : ∃ tl, b.handed m ++ w :: tl = stream m := by
  obtain ⟨hv, -, rfl⟩ := handsOn_eq_singleton.mp hw
  exact h.front hv

end Conserve

/-! ## Packets under way -/

/-- The beginning of the packet an output is busy with. -/
def underway (b : Bench P α) (n : Fin P.mCount) : List (Fin P.sCount × Word P α) :=
  match (b.regs.outputs n).state with
  | .idle => []
  | .proc =>
    if h : (b.regs.outputs n).grantEncodedR < P.sCount then
      tagged (⟨_, h⟩, part (b.handed ⟨_, h⟩))
    else []

/-- The packets of an input that the output has taken are the complete ones for it. -/
def Ordered (b : Bench P α) (n : Fin P.mCount)
    (order : List (Fin P.sCount × List (Word P α))) : Prop :=
  ∀ m, (order.filter fun x => decide (x.1 = m)).map Prod.snd =
    (full (b.handed m)).filter (toOutput n)

/-- The packets that inputs are in the middle of. -/
structure Packets (b : Bench P α) : Prop where
  busy : ∀ n, (b.regs.outputs n).state = .proc → ∃ m : Fin P.sCount,
    (b.regs.outputs n).grantEncodedR = m.val ∧ part (b.handed m) ≠ [] ∧
      ∀ w ∈ part (b.handed m), select w = n.val
  held : ∀ m n, ∀ w ∈ part (b.handed m), select w = n.val →
    (b.regs.outputs n).state = .proc ∧ (b.regs.outputs n).grantEncodedR = m.val
  order : ∀ n, ∃ order, b.passed n = order.flatMap tagged ++ underway b n ∧ Ordered b n order

section Packet
variable {stream : Fin P.sCount → List (Word P α)} {b : Bench P α} {c : Cycle P α}
  {m : Fin P.sCount} {n : Fin P.mCount} {w : Word P α}

theorem Bench.Start.packets (h : b.Start) : Packets b where
  busy n hp := by
    rw [h.fresh.state n] at hp
    exact absurd hp (by decide)
  held m n w hw := by
    rw [h.handed m] at hw
    exact absurd hw List.not_mem_nil
  order n := by
    refine ⟨[], ?_, fun m => ?_⟩
    · rw [h.passed n, underway, h.fresh.state n]
      rfl
    · rw [h.handed m]
      rfl

theorem underway_of_proc (hs : (b.regs.outputs n).state = .proc)
    (hg : (b.regs.outputs n).grantEncodedR = m.val) :
    underway b n = tagged (m, part (b.handed m)) := by
  have hlt : (b.regs.outputs n).grantEncodedR < P.sCount := hg ▸ m.isLt
  have hm : (⟨_, hlt⟩ : Fin P.sCount) = m := Fin.ext hg
  rw [underway, hs]
  simp only [dif_pos hlt, hm]

theorem underway_of_idle (hs : (b.regs.outputs n).state = .idle) : underway b n = [] := by
  rw [underway, hs]

/-- All words of a packet under way go to one output. -/
theorem Packets.select_eq (h : Packets b) {v : Word P α} (hw : w ∈ part (b.handed m))
    (hn : select w = n.val) (hv : v ∈ part (b.handed m)) : select v = n.val := by
  obtain ⟨hs, hg⟩ := h.held m n w hw hn
  obtain ⟨k, hk, -, hall⟩ := h.busy n hs
  have hkm : k = m := Fin.ext (hk.symm.trans hg)
  exact hall v (hkm ▸ hv)

/-- So does the word that comes next. -/
theorem Packets.select_part (h : Packets b) (hstream : Steady (stream m))
    {tl : List (Word P α)} (hnext : b.handed m ++ w :: tl = stream m) {v : Word P α}
    (hv : v ∈ part (b.handed m)) : select v = select w := by
  rw [← hnext] at hstream
  obtain ⟨y, hy, hyw⟩ := hstream.select_eq (List.ne_nil_of_mem hv)
  have hlt : select w < P.mCount := hstream.select_lt w (by simp)
  exact h.select_eq (n := ⟨select w, hlt⟩) hy hyw.symm hv

variable [Inhabited α]

/-- What one input does to its packets. -/
theorem handed_step_of_nil (h : handsOn b.regs (b.inputs c) m = []) :
    (b.step c).handed m = b.handed m := by
  change b.handed m ++ _ = _
  rw [h, List.append_nil]

theorem handed_step_of_handsOn (h : handsOn b.regs (b.inputs c) m = [w]) :
    (b.step c).handed m = b.handed m ++ [w] := by
  change b.handed m ++ _ = _
  rw [h]

/-- An input that hands nothing on to an output completes no packet for it. -/
theorem full_step_of_elsewhere (h : ∀ w, handsOn b.regs (b.inputs c) m = [w] → select w ≠ n.val) :
    (full ((b.step c).handed m)).filter (toOutput n) =
      (full (b.handed m)).filter (toOutput n) := by
  rcases handsOn_cases (r := b.regs) (i := b.inputs c) (m := m) with hnone | ⟨w, hw⟩
  · rw [handed_step_of_nil hnone]
  · rw [handed_step_of_handsOn hw]
    cases hlast : w.tlast with
    | false => rw [(full_of_not_last hlast).1]
    | true =>
      have hno : toOutput n (part (b.handed m) ++ [w]) = false := by
        simp [toOutput, h w hw]
      rw [(full_of_last hlast).1, List.filter_append, List.filter_singleton, hno]
      exact List.append_nil _

variable (h : Packets b) (hcons : Conserves stream b) (hstream : ∀ m, Steady (stream m))
include h hcons hstream

/-- The word an input hands on has the output of the beginning of its packet. -/
theorem Packets.select_handed (hw : handsOn b.regs (b.inputs c) m = [w]) {v : Word P α}
    (hv : v ∈ part (b.handed m)) : select v = select w := by
  obtain ⟨tl, htl⟩ := hcons.next_word hw
  exact h.select_part (hstream m) htl hv

/-- An output that takes nothing is not left behind by the input it is busy with. -/
theorem Packets.handsOn_eq_nil (hp : passes b.regs (b.inputs c) n = [])
    (hpart : part (b.handed m) ≠ []) (hn : ∀ w ∈ part (b.handed m), select w = n.val) :
    handsOn b.regs (b.inputs c) m = [] := by
  rcases handsOn_cases (r := b.regs) (i := b.inputs c) (m := m) with hnone | ⟨w, hw⟩
  · exact hnone
  · obtain ⟨y, hy⟩ := List.exists_mem_of_ne_nil _ hpart
    have hsel : select w = n.val := (h.select_handed hcons hstream hw hy).symm.trans (hn y hy)
    have hpass := passes_iff_handsOn.mpr ⟨hw, hsel⟩
    exact absurd (hpass.symm.trans hp) (List.cons_ne_nil _ _)

/-- An output that takes a word has only the beginning of its packet under way. -/
theorem Packets.underway_eq (hp : passes b.regs (b.inputs c) n = [(m, w)]) :
    underway b n = tagged (m, part (b.handed m)) := by
  obtain ⟨hw, hsel⟩ := passes_iff_handsOn.mp hp
  cases hs : (b.regs.outputs n).state with
  | proc => exact underway_of_proc hs ((state_next_of_passes hp).2.2 hs)
  | idle =>
    rw [underway_of_idle hs]
    rcases List.eq_nil_or_concat (part (b.handed m)) with hnil | ⟨init, y, hy⟩
    · rw [hnil]
      rfl
    · -- an input in the middle of a packet for `n` keeps `n` busy
      have hmem : y ∈ part (b.handed m) := by rw [hy]; simp
      have hy' : select y = n.val := (h.select_handed hcons hstream hw hmem).trans hsel
      rw [(h.held m n y hmem hy').1] at hs
      exact absurd hs (by decide)

theorem Packets.busy_step (hs : ((b.step c).regs.outputs n).state = .proc) :
    ∃ m : Fin P.sCount, ((b.step c).regs.outputs n).grantEncodedR = m.val ∧
      part ((b.step c).handed m) ≠ [] ∧ ∀ w ∈ part ((b.step c).handed m), select w = n.val := by
  rcases passes_cases (r := b.regs) (i := b.inputs c) (n := n) with hp | ⟨m, w, hp⟩
  · obtain ⟨hstate, hg⟩ := state_next_of_nil hp
    have hproc : (b.regs.outputs n).state = .proc := hstate.symm.trans hs
    obtain ⟨m, hm, hpart, hn⟩ := h.busy n hproc
    refine ⟨m, (hg hproc).trans hm, ?_⟩
    rw [handed_step_of_nil (h.handsOn_eq_nil hcons hstream hp hpart hn)]
    exact ⟨hpart, hn⟩
  · obtain ⟨hstate, hg, -⟩ := state_next_of_passes hp
    obtain ⟨hw, hsel⟩ := passes_iff_handsOn.mp hp
    have hlast : w.tlast = false := by
      rw [show ((b.step c).regs.outputs n).state = _ from hstate] at hs
      by_contra hl
      rw [Bool.not_eq_false] at hl
      rw [hl] at hs
      exact absurd hs (by decide)
    refine ⟨m, hg, ?_⟩
    rw [handed_step_of_handsOn hw, (full_of_not_last hlast).2]
    refine ⟨by simp, fun v hv => ?_⟩
    rcases List.mem_append.mp hv with hv | hv
    · exact (h.select_handed hcons hstream hw hv).trans hsel
    · rw [List.mem_singleton.mp hv]
      exact hsel

theorem Packets.held_step {v : Word P α} (hv : v ∈ part ((b.step c).handed m))
    (hn : select v = n.val) :
    ((b.step c).regs.outputs n).state = .proc ∧
      ((b.step c).regs.outputs n).grantEncodedR = m.val := by
  rcases handsOn_cases (r := b.regs) (i := b.inputs c) (m := m) with hnone | ⟨w, hw⟩
  · rw [handed_step_of_nil hnone] at hv
    obtain ⟨hs, hg⟩ := h.held m n v hv hn
    rcases passes_cases (r := b.regs) (i := b.inputs c) (n := n) with hp | ⟨k, x, hp⟩
    · obtain ⟨hstate, hg'⟩ := state_next_of_nil hp
      exact ⟨hstate.trans hs, (hg' hs).trans hg⟩
    · -- the output is busy with this input, so the word it takes is of this input
      have hk : k = m := Fin.ext (((state_next_of_passes hp).2.2 hs).symm.trans hg)
      obtain ⟨hx, -⟩ := passes_iff_handsOn.mp hp
      rw [hk] at hx
      exact absurd (hx.symm.trans hnone) (List.cons_ne_nil _ _)
  · rw [handed_step_of_handsOn hw] at hv
    cases hlast : w.tlast with
    | true =>
      rw [(full_of_last hlast).2] at hv
      exact absurd hv List.not_mem_nil
    | false =>
      rw [(full_of_not_last hlast).2] at hv
      have hsel : select w = n.val := by
        rcases List.mem_append.mp hv with hv | hv
        · exact (h.select_handed hcons hstream hw hv).symm.trans hn
        · rw [← List.mem_singleton.mp hv]
          exact hn
      obtain ⟨hstate, hg, -⟩ := state_next_of_passes (passes_iff_handsOn.mpr ⟨hw, hsel⟩)
      refine ⟨hstate.trans ?_, hg⟩
      rw [hlast]
      rfl

theorem Packets.order_step (c : Cycle P α) (n : Fin P.mCount) :
    ∃ order, (b.step c).passed n = order.flatMap tagged ++ underway (b.step c) n ∧
      Ordered (b.step c) n order := by
  obtain ⟨order, hpassed, hordered⟩ := h.order n
  rcases passes_cases (r := b.regs) (i := b.inputs c) (n := n) with hp | ⟨m, w, hp⟩
  · refine ⟨order, ?_, fun k => ?_⟩
    · have hunder : underway (b.step c) n = underway b n := by
        obtain ⟨hstate, hg⟩ := state_next_of_nil hp
        cases hs : (b.regs.outputs n).state with
        | idle => rw [underway_of_idle hs, underway_of_idle (hstate.trans hs)]
        | proc =>
          obtain ⟨m, hm, hpart, hn⟩ := h.busy n hs
          rw [underway_of_proc hs hm, underway_of_proc (hstate.trans hs) ((hg hs).trans hm),
            handed_step_of_nil (h.handsOn_eq_nil hcons hstream hp hpart hn)]
      change b.passed n ++ _ = _
      rw [hp, List.append_nil, hunder, hpassed]
    · rw [hordered k]
      refine (full_step_of_elsewhere fun w hw hsel => ?_).symm
      have hpass := passes_iff_handsOn.mpr ⟨hw, hsel⟩
      exact absurd (hpass.symm.trans hp) (List.cons_ne_nil _ _)
  · obtain ⟨hw, hsel⟩ := passes_iff_handsOn.mp hp
    obtain ⟨hstate, hg, -⟩ := state_next_of_passes hp
    have hunder := h.underway_eq hcons hstream hp
    have hstep : (b.step c).passed n =
        order.flatMap tagged ++ tagged (m, part (b.handed m) ++ [w]) := by
      change b.passed n ++ _ = _
      rw [hp, hpassed, hunder, List.append_assoc]
      simp [tagged]
    have hother : ∀ k, k ≠ m → (full ((b.step c).handed k)).filter (toOutput n) =
        (full (b.handed k)).filter (toOutput n) := by
      intro k hk
      refine full_step_of_elsewhere fun v hv hv' => hk ?_
      have hpass := passes_iff_handsOn.mpr ⟨hv, hv'⟩
      exact (Prod.mk.inj (List.cons.inj (hpass.symm.trans hp)).1).1
    cases hlast : w.tlast with
    | true =>
      rw [hlast] at hstate
      refine ⟨order ++ [(m, part (b.handed m) ++ [w])], ?_, fun k => ?_⟩
      · rw [hstep, underway_of_idle hstate]
        simp
      · rw [List.filter_append, List.map_append, hordered k]
        by_cases hk : k = m
        · subst hk
          have hto : toOutput n (part (b.handed k) ++ [w]) = true := by
            have hpart : ∀ v ∈ part (b.handed k), select v = n.val := fun v hv =>
              (h.select_handed hcons hstream hw hv).trans hsel
            simp [toOutput, hsel]
            exact hpart
          rw [handed_step_of_handsOn hw, (full_of_last hlast).1, List.filter_append]
          simp [hto]
        · rw [hother k hk]
          simp [Ne.symm hk]
    | false =>
      rw [hlast] at hstate
      refine ⟨order, ?_, fun k => ?_⟩
      · rw [hstep, underway_of_proc hstate hg, handed_step_of_handsOn hw,
          (full_of_not_last hlast).2]
      · rw [hordered k]
        by_cases hk : k = m
        · rw [hk, handed_step_of_handsOn hw, (full_of_not_last hlast).1]
        · exact (hother k hk).symm

theorem Packets.step (c : Cycle P α) : Packets (b.step c) where
  busy _ hs := h.busy_step hcons hstream hs
  held _ _ _ hv hn := h.held_step hcons hstream hv hn
  order n := h.order_step hcons hstream c n

end Packet

/-! ## Waiting for an output -/

/-- The waiting input asks for the output whenever a packet starts there, and the packet that
starts is not its own. -/
def Waits [Inhabited α] (n : Fin P.mCount) (k : Fin P.sCount) (b : Bench P α) (c : Cycle P α) :
    Prop :=
  starts b.regs (b.inputs c) n = true →
    request b.regs (b.inputs c) n k = true ∧ grantEncoded b.regs (b.inputs c) n ≠ k.val

/-- A packet starts on the output. -/
def Starts [Inhabited α] (n : Fin P.mCount) (b : Bench P α) (c : Cycle P α) : Prop :=
  starts b.regs (b.inputs c) n = true

instance [Inhabited α] (n : Fin P.mCount) (k : Fin P.sCount) (b : Bench P α) (c : Cycle P α) :
    Decidable (Waits n k b c) :=
  inferInstanceAs (Decidable (_ → _ ∧ _))

instance [Inhabited α] (n : Fin P.mCount) (b : Bench P α) (c : Cycle P α) :
    Decidable (Starts n b c) :=
  inferInstanceAs (Decidable (_ = _))

/-- How many places an input is away from its turn. -/
def Away (n : Fin P.mCount) (k : Fin P.sCount) (b : Bench P α) (d : Nat) : Prop :=
  ∃ t, (b.regs.outputs n).arb.Pointer P.arbLsbHighPriority t ∧
    d = ahead P.sCount t (SimpleArbiter.place P.arbLsbHighPriority k)

section Turns
variable [Inhabited α] {b : Bench P α} {c : Cycle P α} {n : Fin P.mCount} {k : Fin P.sCount}

theorem pointer_step {t : Nat} (h : (b.regs.outputs n).arb.Pointer P.arbLsbHighPriority t)
    (c : Cycle P α) :
    (¬ Starts n b c ∧ ((b.step c).regs.outputs n).arb.Pointer P.arbLsbHighPriority t) ∨
      (Starts n b c ∧ ∃ hlt : grantEncoded b.regs (b.inputs c) n < P.sCount,
        ((b.step c).regs.outputs n).arb.Pointer P.arbLsbHighPriority
          (SimpleArbiter.place P.arbLsbHighPriority ⟨_, hlt⟩ + 1)) := by
  have hstarts : starts b.regs (b.inputs c) n =
      (grantValid b.regs (b.inputs c) n && (sAxisTreadyMux b.regs (b.inputs c) n &&
        decide ((b.regs.outputs n).state = .idle))) := by
    unfold starts
    cases grantValid b.regs (b.inputs c) n <;> cases sAxisTreadyMux b.regs (b.inputs c) n <;> simp
  unfold Starts
  rw [hstarts]
  exact h.next _

theorem pointers_run (h : ∀ n, ∃ t, (b.regs.outputs n).arb.Pointer P.arbLsbHighPriority t)
    (cycles : List (Cycle P α)) (n : Fin P.mCount) :
    ∃ t, ((run Bench.step b cycles).regs.outputs n).arb.Pointer P.arbLsbHighPriority t := by
  refine run_preserves (P := fun b : Bench P α =>
    ∃ t, (b.regs.outputs n).arb.Pointer P.arbLsbHighPriority t) ?_ (h n) cycles
  rintro b c ⟨t, ht⟩
  rcases pointer_step ht c with ⟨-, ht'⟩ | ⟨-, _, ht'⟩
  · exact ⟨_, ht'⟩
  · exact ⟨_, ht'⟩

/-- Every packet of another input brings the waiting one nearer to its turn. -/
theorem away_step {d : Nat} (h : Away n k b d) (hw : Waits n k b c) :
    ∃ d', Away n k (b.step c) d' ∧ d' + (if Starts n b c then 1 else 0) ≤ d := by
  obtain ⟨t, ht, rfl⟩ := h
  rcases pointer_step ht c with ⟨hno, ht'⟩ | ⟨hstart, hlt, ht'⟩
  · exact ⟨_, ⟨t, ht', rfl⟩, by rw [if_neg hno]; exact Nat.le_refl _⟩
  · refine ⟨_, ⟨_, ht', rfl⟩, ?_⟩
    rw [if_pos hstart]
    obtain ⟨hreq, hne⟩ := hw hstart
    have hturn := SimpleArbiter.turn_of_grantValidBy ht (starts_eq_true.mp hstart).2.1 hlt
    have hplace : SimpleArbiter.place P.arbLsbHighPriority
          (⟨grantEncoded b.regs (b.inputs c) n, hlt⟩ : Fin P.sCount) ≠
        SimpleArbiter.place P.arbLsbHighPriority k := fun heq =>
      hne (congrArg Fin.val (SimpleArbiter.place_injective _ heq))
    exact hturn.ahead_lt ht.1 (SimpleArbiter.place_lt _ _) (SimpleArbiter.place_lt _ _) hreq hplace

theorem starts_le (h : ∃ t, (b.regs.outputs n).arb.Pointer P.arbLsbHighPriority t)
    {window : List (Cycle P α)} (hw : Meets Bench.step (Waits n k) b window) :
    tally Bench.step (Starts n) b window ≤ P.sCount - 1 := by
  obtain ⟨t, ht⟩ := h
  have haway : Away n k b (ahead P.sCount t (SimpleArbiter.place P.arbLsbHighPriority k)) :=
    ⟨t, ht, rfl⟩
  have hle : tally Bench.step (Starts n) b window ≤ _ :=
    tally_le (R := Away n k) (fun _ _ _ h hc => away_step h hc) haway hw
  have hlt := ahead_lt ht.1 (SimpleArbiter.place_lt P.arbLsbHighPriority k)
  omega

end Turns

/-! ## Progress -/

/-- What is left to do for an input: to take its words in, and to hand them on. -/
def Bench.inputLeft (b : Bench P α) (m : Fin P.sCount) : Nat :=
  7 * (b.pending m).length + 2 * (b.regs.sReg m).rank P.sRegType

def Bench.outputLeft (b : Bench P α) (n : Fin P.mCount) : Nat :=
  (b.regs.outputs n).reg.rank P.mRegType

/-- What is left to do. -/
def Bench.left (b : Bench P α) : Nat := ∑ m, b.inputLeft m + ∑ n, b.outputLeft n

/-- A cycle in which all senders offer their words and all receivers are ready. -/
def Feeds (_ : Bench P α) (c : Cycle P α) : Prop :=
  (∀ m, c.offer m = true) ∧ ∀ n, c.mAxisTready n = true
deriving Decidable

section Progress
variable {stream : Fin P.sCount → List (Word P α)} {b : Bench P α} {c : Cycle P α}
  {m : Fin P.sCount} {n : Fin P.mCount}

theorem empty_of_left (h : b.left = 0) :
    (∀ m, b.pending m = [] ∧ b.sHeld m = []) ∧ ∀ n, b.mHeld n = [] := by
  obtain ⟨hin, hout⟩ := Nat.add_eq_zero_iff.mp h
  refine ⟨fun m => ?_, fun n => ?_⟩
  · have hm : b.inputLeft m = 0 := Finset.sum_eq_zero_iff.mp hin m (Finset.mem_univ m)
    unfold Bench.inputLeft at hm
    exact ⟨List.length_eq_zero_iff.mp (by omega), PipeRegister.contents_of_rank (by omega)⟩
  · exact PipeRegister.contents_of_rank (Finset.sum_eq_zero_iff.mp hout n (Finset.mem_univ n))

variable [Inhabited α]

theorem inputLeft_step (hr : Registered b) (c : Cycle P α) (m : Fin P.sCount) :
    (b.step c).inputLeft m + (accepts b.regs (b.inputs c) m).length +
      4 * (handsOn b.regs (b.inputs c) m).length ≤ b.inputLeft m := by
  have hpend := congrArg List.length (b.pending_step c m)
  have hrank := PipeRegister.rank_next
    (i := sSide (b.inputs c) m (intSAxisTready b.regs (b.inputs c) m)) (hr.sReg m) rfl
  change ((b.step c).regs.sReg m).rank P.sRegType +
    (if intSAxisTvalid b.regs (b.inputs c) m && intSAxisTready b.regs (b.inputs c) m then 2
      else 0) ≤
    (b.regs.sReg m).rank P.sRegType +
      (if (b.inputs c).sAxisTvalid m && sAxisTready b.regs (b.inputs c) m then 3 else 0) at hrank
  rw [List.length_append] at hpend
  unfold Bench.inputLeft
  unfold accepts at hpend ⊢
  unfold handsOn
  cases hh : intSAxisTvalid b.regs (b.inputs c) m && intSAxisTready b.regs (b.inputs c) m <;>
    cases ha : (b.inputs c).sAxisTvalid m && sAxisTready b.regs (b.inputs c) m <;>
    simp only [hh, ha, if_true, Bool.false_eq_true, if_false, List.length_nil,
      List.length_singleton] at hrank hpend ⊢ <;> omega

theorem length_passes : (if sAxisTvalidMux b.regs (b.inputs c) n &&
    (b.regs.outputs n).reg.dinReady P.mRegType (mSide b.regs (b.inputs c) n) then 3 else 0) =
      3 * (passes b.regs (b.inputs c) n).length := by
  have htakes := congrArg List.length (reg_takes (r := b.regs) (i := b.inputs c) (n := n))
  rw [List.length_map] at htakes
  rw [← htakes]
  split <;> rfl

theorem outputLeft_step (hr : Registered b) (c : Cycle P α) (n : Fin P.mCount) :
    (b.step c).outputLeft n ≤ b.outputLeft n + 3 * (passes b.regs (b.inputs c) n).length := by
  have hrank := PipeRegister.rank_next (i := mSide b.regs (b.inputs c) n) (hr.reg n) rfl
  rw [← length_passes]
  exact Nat.le_trans (Nat.le_add_right _ _) hrank

theorem outputLeft_step_lt (hr : Registered b) (hready : c.mAxisTready n = true)
    (hleft : b.outputLeft n ≠ 0) :
    (b.step c).outputLeft n < b.outputLeft n + 3 * (passes b.regs (b.inputs c) n).length := by
  rw [← length_passes]
  exact PipeRegister.rank_next_lt (i := mSide b.regs (b.inputs c) n) (hr.reg n) rfl hready hleft

/-- The outputs take no more words than the inputs hand on. -/
theorem sum_passes_le :
    ∑ n, (passes b.regs (b.inputs c) n).length ≤ ∑ m, (handsOn b.regs (b.inputs c) m).length := by
  have hsplit : ∀ n, (passes b.regs (b.inputs c) n).length ≤
      ∑ m, ((handsOn b.regs (b.inputs c) m).filter fun w => decide (select w = n.val)).length := by
    intro n
    rcases passes_cases (r := b.regs) (i := b.inputs c) (n := n) with hp | ⟨m, w, hp⟩
    · rw [hp]
      exact Nat.zero_le _
    · obtain ⟨hw, hsel⟩ := passes_iff_handsOn.mp hp
      refine Nat.le_trans ?_ (Finset.single_le_sum (fun _ _ => Nat.zero_le _) (Finset.mem_univ m))
      simp [hp, hw, hsel]
  refine Nat.le_trans (Finset.sum_le_sum fun n _ => hsplit n) ?_
  rw [Finset.sum_comm]
  refine Finset.sum_le_sum fun m _ => ?_
  rcases handsOn_cases (r := b.regs) (i := b.inputs c) (m := m) with hnone | ⟨w, hw⟩
  · simp [hnone]
  · -- a word goes to one output at most
    rw [hw]
    by_cases hlt : select w < P.mCount
    · have hone : ∀ n : Fin P.mCount, ([w].filter fun w => decide (select w = n.val)).length =
          if n = ⟨select w, hlt⟩ then 1 else 0 := by
        intro n
        by_cases hn : n = ⟨select w, hlt⟩
        · simp [hn]
        · have hne : select w ≠ n.val := fun h => hn (Fin.ext h.symm)
          simp [hn, hne]
      simp [hone]
    · have hzero : ∀ n : Fin P.mCount,
          ([w].filter fun w => decide (select w = n.val)).length = 0 := by
        intro n
        have hne : select w ≠ n.val := fun h => hlt (h ▸ n.isLt)
        simp [hne]
      simp [hzero]

/-- A cycle that moves words lowers what is left. -/
theorem left_step (hr : Registered b) (c : Cycle P α) :
    (b.step c).left + ∑ m, ((accepts b.regs (b.inputs c) m).length +
      (handsOn b.regs (b.inputs c) m).length) ≤ b.left := by
  have hin := Finset.sum_le_sum fun m (_ : m ∈ Finset.univ) => inputLeft_step hr c m
  have hout := Finset.sum_le_sum fun n (_ : n ∈ Finset.univ) => outputLeft_step hr c n
  have hmoved := sum_passes_le (b := b) (c := c)
  rw [Finset.sum_add_distrib, Finset.sum_add_distrib, ← Finset.mul_sum] at hin
  rw [Finset.sum_add_distrib, ← Finset.mul_sum] at hout
  rw [Finset.sum_add_distrib]
  unfold Bench.left
  omega

/-- An empty register that is not ready gets ready. -/
theorem inputLeft_step_lt (hheld : b.sHeld m = []) (hrank : (b.regs.sReg m).rank P.sRegType ≠ 0) :
    (b.step c).inputLeft m < b.inputLeft m := by
  have hlt := PipeRegister.rank_next_of_contents
    (i := sSide (b.inputs c) m (intSAxisTready b.regs (b.inputs c) m)) rfl hheld hrank
  have hpending := congrArg List.length (b.pending_step c m)
  rw [List.length_append] at hpending
  change 7 * ((b.step c).pending m).length + 2 * ((b.regs.sReg m).next P.sRegType
    (sSide (b.inputs c) m (intSAxisTready b.regs (b.inputs c) m))).rank P.sRegType < _
  unfold Bench.inputLeft
  omega

/-- An input with words to send has one of them in front of the outputs, or takes one in, or
its register gets ready. -/
theorem moves_of_words (htype : P.sRegType ≠ 1) (hoffer : c.offer m = true)
    (hwords : b.sHeld m ++ b.pending m ≠ []) :
    intSAxisTvalid b.regs (b.inputs c) m = true ∨ accepts b.regs (b.inputs c) m ≠ [] ∨
      (b.step c).inputLeft m < b.inputLeft m := by
  by_cases hheld : b.sHeld m = []
  · cases hpend : b.pending m with
    | nil =>
      rw [hheld, hpend] at hwords
      exact absurd rfl hwords
    | cons x xs =>
      have hbus : bus (b.pending m) (c.offer m) (c.wires m) = (true, x) := by
        rw [hpend, hoffer]
        rfl
      by_cases ht : P.sRegType = 0
      · left
        simp only [intSAxisTvalid, PipeRegister.doutValid, ht]
        exact congrArg Prod.fst hbus
      · by_cases hrank : (b.regs.sReg m).rank P.sRegType = 0
        · have hready : sAxisTready b.regs (b.inputs c) m = true :=
            PipeRegister.dinReady_of_rank htype (fun hz => absurd hz ht) hrank
          refine .inr (.inl ?_)
          simp [accepts, Bench.inputs, hbus]
          exact hready
        · exact .inr (.inr (inputLeft_step_lt hheld hrank))
  · exact .inl (PipeRegister.doutValid_of_contents hheld)

/-- A ready output takes the word of an input that has it to itself. -/
theorem handsOn_of_granted (hready : sAxisTreadyMux b.regs (b.inputs c) n = true)
    (hg : granted b.regs (b.inputs c) n = m.val)
    (hreq : request b.regs (b.inputs c) n m = true) : handsOn b.regs (b.inputs c) m ≠ [] := by
  have hp := passes_eq_singleton.mpr ⟨hg, hreq, hready, rfl⟩
  rw [(passes_iff_handsOn.mp hp).1]
  exact List.cons_ne_nil _ _

/-- **With all senders offering and all receivers ready something moves**, as long as anything
is left to do. -/
theorem moves_of_feeds (htypes : P.sRegType ≠ 1 ∧ P.mRegType ≠ 1)
    (hcons : Conserves stream b) (hpk : Packets b)
    (hstream : ∀ m, Steady (stream m)) (hwhole : ∀ m, part (stream m) = []) (hfeed : Feeds b c)
    (hleft : b.left ≠ 0) :
    (∃ m, accepts b.regs (b.inputs c) m ≠ [] ∨ handsOn b.regs (b.inputs c) m ≠ []) ∨
      (∃ m, (b.step c).inputLeft m < b.inputLeft m) ∨ ∃ n, b.outputLeft n ≠ 0 := by
  by_contra hstuck
  obtain ⟨hmoves, hstuck⟩ := not_or.mp hstuck
  obtain ⟨hin, hout⟩ := not_or.mp hstuck
  have hready : ∀ n, sAxisTreadyMux b.regs (b.inputs c) n = true := by
    intro n
    have hrank : b.outputLeft n = 0 := by
      by_contra hne
      exact hout ⟨n, hne⟩
    exact PipeRegister.dinReady_of_rank htypes.2 (fun _ => hfeed.2 n) hrank
  have hoffered : ∀ m, b.sHeld m ++ b.pending m ≠ [] →
      intSAxisTvalid b.regs (b.inputs c) m = true := by
    intro m hwords
    rcases moves_of_words htypes.1 (hfeed.1 m) hwords with hv | hacc | hlt
    · exact hv
    · exact absurd ⟨m, .inl hacc⟩ hmoves
    · exact absurd ⟨m, hlt⟩ hin
  -- some input still has words, since otherwise nothing would be left
  obtain ⟨m, hwords⟩ : ∃ m, b.sHeld m ++ b.pending m ≠ [] := by
    by_contra hnone
    refine hleft ?_
    have hzero : ∀ m, b.inputLeft m = 0 := by
      intro m
      have hnil : b.sHeld m ++ b.pending m = [] := by
        by_contra hne
        exact hnone ⟨m, hne⟩
      obtain ⟨hheld, hpend⟩ := List.append_eq_nil_iff.mp hnil
      have hrank : (b.regs.sReg m).rank P.sRegType = 0 := by
        by_contra hne
        exact hin ⟨m, inputLeft_step_lt hheld hne⟩
      simp [Bench.inputLeft, hpend, hrank]
    have hzero' : ∀ n, b.outputLeft n = 0 := by
      intro n
      by_contra hne
      exact hout ⟨n, hne⟩
    simp [Bench.left, hzero, hzero']
  have hv := hoffered m hwords
  obtain ⟨tl, htl⟩ := hcons.front hv
  have hlt : select (intSAxis b.regs (b.inputs c) m) < P.mCount :=
    (hstream m).select_lt _ (by rw [← htl]; simp)
  have hreq : request b.regs (b.inputs c) ⟨_, hlt⟩ m = true := request_eq_true.mpr ⟨hv, rfl⟩
  generalize (⟨_, hlt⟩ : Fin P.mCount) = n at hreq
  cases hs : (b.regs.outputs n).state with
  | idle =>
    have hgv : grantValid b.regs (b.inputs c) n = true :=
      SimpleArbiter.grantValidBy_of_request hreq
    obtain ⟨hglt, hgreq⟩ := SimpleArbiter.request_of_grantValidBy hgv
    have hg : granted b.regs (b.inputs c) n = grantEncoded b.regs (b.inputs c) n := by
      rw [granted, hs]
    exact hmoves ⟨⟨_, hglt⟩, .inr (handsOn_of_granted (hready n) hg hgreq)⟩
  | proc =>
    -- the input the output is busy with has the rest of its packet to send
    obtain ⟨g, hg, hpart, hsel⟩ := hpk.busy n hs
    have hgwords : b.sHeld g ++ b.pending g ≠ [] := by
      intro hnil
      have hall : b.handed g = stream g := by
        rw [← hcons.stream g, hcons.accepted g, List.append_assoc, hnil, List.append_nil]
      exact hpart (hall ▸ hwhole g)
    have hgv := hoffered g hgwords
    obtain ⟨gtl, hgtl⟩ := hcons.front hgv
    obtain ⟨y, hy⟩ := List.exists_mem_of_ne_nil _ hpart
    have hgsel : select (intSAxis b.regs (b.inputs c) g) = n.val :=
      (hpk.select_part (hstream g) hgtl hy).symm.trans (hsel y hy)
    have hgranted : granted b.regs (b.inputs c) n = g.val := by rw [granted, hs, hg]
    exact hmoves ⟨g, .inr (handsOn_of_granted (hready n) hgranted
      (request_eq_true.mpr ⟨hgv, hgsel⟩))⟩

theorem left_step_of_feeds (htypes : P.sRegType ≠ 1 ∧ P.mRegType ≠ 1) (hr : Registered b)
    (hcons : Conserves stream b) (hpk : Packets b)
    (hstream : ∀ m, Steady (stream m)) (hwhole : ∀ m, part (stream m) = []) (hfeed : Feeds b c)
    (hleft : b.left ≠ 0) : (b.step c).left < b.left := by
  have hle := left_step hr c
  by_cases hmoves : ∃ m, accepts b.regs (b.inputs c) m ≠ [] ∨ handsOn b.regs (b.inputs c) m ≠ []
  · obtain ⟨m, hm⟩ := hmoves
    have hone : 0 < (accepts b.regs (b.inputs c) m).length +
        (handsOn b.regs (b.inputs c) m).length := by
      rcases hm with hm | hm
      · exact Nat.add_pos_left (List.length_pos_iff.mpr hm) _
      · exact Nat.add_pos_right _ (List.length_pos_iff.mpr hm)
    have hsum := Finset.single_le_sum (f := fun m => (accepts b.regs (b.inputs c) m).length +
      (handsOn b.regs (b.inputs c) m).length) (fun _ _ => Nat.zero_le _) (Finset.mem_univ m)
    omega
  · -- no word crosses the switch, so that one of the terms itself gets smaller
    have hnone : ∀ n, (passes b.regs (b.inputs c) n).length = 0 := by
      intro n
      rcases passes_cases (r := b.regs) (i := b.inputs c) (n := n) with hp | ⟨m, w, hp⟩
      · rw [hp]
        rfl
      · refine absurd ⟨m, .inr ?_⟩ hmoves
        rw [(passes_iff_handsOn.mp hp).1]
        exact List.cons_ne_nil _ _
    have hin : ∀ m ∈ Finset.univ, (b.step c).inputLeft m ≤ b.inputLeft m := fun m _ =>
      Nat.le_trans (Nat.le_add_right _ _)
        (Nat.le_trans (Nat.le_add_right _ _) (inputLeft_step hr c m))
    have hout : ∀ n ∈ Finset.univ, (b.step c).outputLeft n ≤ b.outputLeft n := by
      intro n _
      have hstep := outputLeft_step hr c n
      rwa [hnone n] at hstep
    rcases moves_of_feeds htypes hcons hpk hstream hwhole hfeed hleft with hm | ⟨m, hm⟩ | ⟨n, hn⟩
    · exact absurd hm hmoves
    · exact Nat.add_lt_add_of_lt_of_le (Finset.sum_lt_sum hin ⟨m, Finset.mem_univ m, hm⟩)
        (Finset.sum_le_sum hout)
    · have hlt := outputLeft_step_lt hr (hfeed.2 n) hn
      rw [hnone n] at hlt
      exact Nat.add_lt_add_of_le_of_lt (Finset.sum_le_sum hin)
        (Finset.sum_lt_sum hout ⟨n, Finset.mem_univ n, hlt⟩)

end Progress

/-! ## The packet switch -/

section Switch
variable [Inhabited α] {b : Bench P α}

/-- What holds in every state that is reached. -/
structure Inv (stream : Fin P.sCount → List (Word P α)) (b : Bench P α) : Prop where
  registered : Registered b
  conserves : Conserves stream b
  packets : Packets b

theorem Inv.step {stream : Fin P.sCount → List (Word P α)} (h : Inv stream b)
    (hstream : ∀ m, Steady (stream m)) (c : Cycle P α) : Inv stream (b.step c) where
  registered := h.registered.step c
  conserves := h.conserves.step h.registered c
  packets := h.packets.step h.conserves hstream c

/-- **The switch is a fair packet switch.**  Whatever the senders and receivers do:

* every word accepted from an input has been handed on or is in the input's register; the
  words handed on by an input for an output are the words of that input the output took; and
  these have been put out or are in the output's register;
* an output takes whole packets, one after the other, and then the beginning of one more; those
  of an input are the packets it has handed on for that output, in their order;
* while an input waits for an output, at most `S_COUNT - 1` packets of others start there;
* if no stage is a single register, which never becomes ready after a reset, and the streams
  end with a packet, after `Bench.left` cycles in which all senders offer their words and all
  receivers are ready, everything has been put out. -/
theorem fair_packet_switch (hstart : b.Start) (hstream : ∀ m, Steady (b.pending m))
    (cycles : List (Cycle P α)) :
    let e := run Bench.step b cycles
    Conserves b.pending e ∧
    (∀ n, ∃ order current, e.passed n = order.flatMap tagged ++ current ∧ Ordered e n order ∧
      (current = [] ∨ ∃ m, current = tagged (m, part (e.handed m)))) ∧
    (∀ n k window, Meets Bench.step (Waits n k) e window →
      tally Bench.step (Starts n) e window ≤ P.sCount - 1) ∧
    (P.sRegType ≠ 1 ∧ P.mRegType ≠ 1 → (∀ m, part (b.pending m) = []) →
      b.left ≤ tally Bench.step Feeds b cycles →
      (∀ m, e.handed m = b.pending m) ∧ ∀ n, (e.passed n).map Prod.snd = e.out n) := by
  intro e
  have hinit : Inv b.pending b := ⟨hstart.registered, hstart.conserves, hstart.packets⟩
  have hinv : Inv b.pending e :=
    run_preserves (fun _ c h => h.step hstream c) hinit cycles
  refine ⟨hinv.conserves, fun n => ?_, fun n k window hw => ?_, fun htypes hwhole hfed => ?_⟩
  · obtain ⟨order, hpassed, hordered⟩ := hinv.packets.order n
    refine ⟨order, underway e n, hpassed, hordered, ?_⟩
    cases hs : (e.regs.outputs n).state with
    | idle => exact .inl (underway_of_idle hs)
    | proc =>
      obtain ⟨m, hm, -⟩ := hinv.packets.busy n hs
      exact .inr ⟨m, underway_of_proc hs hm⟩
  · have hclear : ∀ n, ∃ t, (b.regs.outputs n).arb.Pointer P.arbLsbHighPriority t := fun n =>
      ⟨_, SimpleArbiter.pointer_of_clear (hstart.fresh.arb n)⟩
    exact starts_le (pointers_run hclear cycles n) hw
  · have hkeep : ∀ s c, Inv b.pending s → True → Inv b.pending (s.step c) :=
      fun _ c h _ => h.step hstream c
    have hrank := run_exhausts (D := Feeds) (m := Bench.left) hkeep
      (fun s c h _ => by
        have hle := left_step h.registered c
        split
        · rename_i hfeed
          by_cases hzero : s.left = 0
          · omega
          · have hlt := left_step_of_feeds htypes h.registered h.conserves h.packets hstream hwhole
              hfeed hzero
            omega
        · omega) hinit (meets_true _ b cycles)
    have hleft : e.left = 0 := Nat.le_zero.mp (Nat.le_trans hrank (by omega))
    obtain ⟨hin, hout⟩ := empty_of_left hleft
    refine ⟨fun m => ?_, fun n => ?_⟩
    · have hall := hinv.conserves.stream m
      rw [hinv.conserves.accepted m, (hin m).1, (hin m).2, List.append_nil, List.append_nil] at hall
      exact hall
    · rw [hinv.conserves.passed n, hout n, List.append_nil]

/-- Two inputs and two outputs, with the registers the module has by default. -/
def sampleConfig : Config := ⟨2, 2, 1, 0, 2, true, Nat.one_lt_two, Nat.one_lt_two, by decide⟩

/-- Both inputs have a packet of two words for output 1, the first one also a short one for
output 0. -/
def sampleStream (m : Fin 2) : List (Word sampleConfig Nat) :=
  if m.val = 0 then [⟨1, 1, false⟩, ⟨2, 1, true⟩, ⟨3, 0, true⟩] else [⟨4, 1, false⟩, ⟨5, 1, true⟩]

def freshRegister : PipeRegister (Word sampleConfig Nat) :=
  ⟨false, false, false, false, ⟨0, 0, false⟩, ⟨0, 0, false⟩⟩

def sampleBench : Bench sampleConfig Nat where
  regs := ⟨fun _ => freshRegister, fun _ => ⟨.idle, 0, ⟨fun _ => false⟩, freshRegister⟩⟩
  pending := sampleStream
  accepted := fun _ => []
  handed := fun _ => []
  passed := fun _ => []
  out := fun _ => []

theorem sampleBench_start : sampleBench.Start :=
  ⟨⟨fun _ => ⟨rfl, rfl, rfl, rfl⟩, fun _ => rfl, fun _ _ => rfl, fun _ => ⟨rfl, rfl, rfl, rfl⟩⟩,
    fun _ => rfl, fun _ => rfl, fun _ => rfl, fun _ => rfl⟩

/-- All senders offer their words and all receivers are ready. -/
def flowing : Cycle sampleConfig Nat := ⟨fun _ => true, fun _ => ⟨0, 0, false⟩, fun _ => true⟩

theorem fair_packet_switch_two :
    let e := run Bench.step sampleBench (List.replicate 40 flowing)
    (e.passed ⟨1, by decide⟩).map (fun x => (x.1.val, x.2.payload)) =
        [(0, 1), (0, 2), (1, 4), (1, 5)] ∧
      (∀ m, e.handed m = sampleBench.pending m) ∧ ∀ n, (e.passed n).map Prod.snd = e.out n :=
  ⟨by decide +kernel,
    (fair_packet_switch sampleBench_start
      (by intro m; exact ⟨by revert m; decide, by revert m; decide⟩) _).2.2.2
      (by decide) (by decide) (by decide +kernel)⟩

end Switch

end Rosebud.SimpleAxisSwitch
