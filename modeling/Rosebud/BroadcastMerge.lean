import Mathlib.Logic.Function.Basic
import Rosebud.PipeRegister
import Rosebud.BasicFifo
import Rosebud.Clocked

/-! # Merging the streams of all cores: `axis_simple_arb_2lvl`

The words of `CLUSTER_COUNT * S_PER_CLUSTER` cores are merged in two levels.  Inside a
cluster the input registers lead to an arbitrated multiplexer and a queue, or straight on
if a cluster has one core only; a second multiplexer merges the clusters.

The vendored multiplexer is not modelled as a circuit.  `OrderedMux` is what is assumed of
it: the words of a port wait in their order, in any cycle it may accept from any of its
ports, and it may offer the oldest word of any port.

A word carries the id of its core.  `SimpleArb2lvl.Sound.conservation` says for each core that its
words inside, followed by the one accepted, are the one sent followed by its words inside
after the cycle.
-/
namespace Rosebud

/-! ## The multiplexer, as far as it is assumed -/

structure OrderedMux (n : Nat) (α : Type) where
  held : Fin n → List α

namespace OrderedMux
variable {n : Nat} {α : Type}

/-- What the multiplexer decides in a cycle: the ports it accepts from, and the port whose
oldest word it offers. -/
structure Choice (n : Nat) where
  ready : Fin n → Bool
  grant : Option (Fin n)

section Module
variable (m : OrderedMux n α) (c : Choice n) (sAxisTvalid : Fin n → Bool) (sAxis : Fin n → α)
  (mAxisTready : Bool)

/-- The word on offer, and its port. -/
def offer : Option (Fin n × α) := c.grant.bind fun j => (m.held j).head?.map fun x => (j, x)

/-- The word that leaves. -/
def leaving : List α := if mAxisTready then (m.offer c).toList.map Prod.snd else []

/-- The word of port `j` that leaves. -/
def leavingOf (j : Fin n) : List α :=
  if mAxisTready then ((m.offer c).toList.filter fun x => decide (x.1 = j)).map Prod.snd else []

def next : OrderedMux n α where
  held j := (m.held j).drop (m.leavingOf c mAxisTready j).length ++
    if sAxisTvalid j && c.ready j then [sAxis j] else []

end Module

section Step
variable {m : OrderedMux n α} {c : Choice n} {sAxisTvalid : Fin n → Bool} {sAxis : Fin n → α}
  {mAxisTready : Bool}

theorem offer_eq_some {j : Fin n} {x : α} (h : m.offer c = some (j, x)) :
    ∃ rest, m.held j = x :: rest := by
  obtain ⟨k, -, hk⟩ := Option.bind_eq_some_iff.mp h
  obtain ⟨y, hy, hjx⟩ := Option.map_eq_some_iff.mp hk
  obtain ⟨rfl, rfl⟩ := Prod.mk.inj hjx
  exact List.head?_eq_some_iff.mp hy

variable (m c sAxisTvalid sAxis mAxisTready) in
/-- **Nothing is lost, repeated or reordered** at a port. -/
theorem conservation (j : Fin n) :
    m.held j ++ (if sAxisTvalid j && c.ready j then [sAxis j] else []) =
      m.leavingOf c mAxisTready j ++ (m.next c sAxisTvalid sAxis mAxisTready).held j := by
  have hfront : m.leavingOf c mAxisTready j ++
      (m.held j).drop (m.leavingOf c mAxisTready j).length = m.held j := by
    unfold leavingOf
    split
    · cases ho : m.offer c with
      | none => simp
      | some y =>
        obtain ⟨k, x⟩ := y
        obtain ⟨rest, hrest⟩ := offer_eq_some ho
        by_cases hk : k = j
        · subst hk
          simp [hrest]
        · simp [hk]
    · rfl
  change _ = _ ++ (_ ++ _)
  rw [← List.append_assoc, hfront]

/-- The word that leaves is of port `j` if the words of the other ports are sorted out. -/
theorem filter_leaving {q : α → Bool} {j : Fin n}
    (h : ∀ k, k ≠ j → ∀ x ∈ m.held k, q x = false) :
    (m.leaving c mAxisTready).filter q = (m.leavingOf c mAxisTready j).filter q := by
  unfold leaving leavingOf
  split
  · cases ho : m.offer c with
    | none => rfl
    | some y =>
      obtain ⟨k, x⟩ := y
      by_cases hk : k = j
      · simp [hk]
      · obtain ⟨rest, hrest⟩ := offer_eq_some ho
        simp [hk, h k hk x (by simp [hrest])]
  · rfl

theorem mem_leaving {x : α} (hx : x ∈ m.leaving c mAxisTready) : ∃ j, x ∈ m.held j := by
  unfold leaving at hx
  split at hx
  · obtain ⟨⟨j, y⟩, hy, rfl⟩ := List.mem_map.mp hx
    obtain ⟨rest, hrest⟩ := offer_eq_some (Option.mem_toList.mp hy)
    exact ⟨j, by simp [hrest]⟩
  · exact absurd hx List.not_mem_nil

theorem forall_held_next {Q : α → Prop} {j : Fin n} (hc : ∀ x ∈ m.held j, Q x)
    (hi : sAxisTvalid j = true → Q (sAxis j)) :
    ∀ x ∈ (m.next c sAxisTvalid sAxis mAxisTready).held j, Q x := by
  intro x hx
  rcases List.mem_append.mp hx with hold | hnew
  · exact hc x (List.mem_of_mem_drop hold)
  · split at hnew
    · rename_i hacc
      rw [List.mem_singleton.mp hnew]
      exact hi (Bool.and_eq_true_iff.mp hacc).1
    · exact absurd hnew List.not_mem_nil

end Step
end OrderedMux

/-! ## Words and their senders -/

namespace SimpleArb2lvl

/-- A message with the id of its core. -/
abbrev Word (M : Type) (w : Nat) := M × BitVec w

variable {M : Type} {w : Nat}

/-- The messages of one core. -/
def sentBy (id : BitVec w) (l : List (Word M w)) : List M :=
  (l.filter fun x => decide (x.2 = id)).map Prod.fst

@[simp] theorem sentBy_nil (id : BitVec w) : sentBy id ([] : List (Word M w)) = [] := rfl

@[simp] theorem sentBy_append (id : BitVec w) (l l' : List (Word M w)) :
    sentBy id (l ++ l') = sentBy id l ++ sentBy id l' := by
  simp [sentBy]

/-- A multiplexer whose ports have ids of their own lets the messages of one core out of its
port only. -/
theorem sentBy_leaving {n : Nat} {m : OrderedMux n (Word M w)} {c : OrderedMux.Choice n}
    {mAxisTready : Bool} {id : BitVec w} {j : Fin n}
    (h : ∀ k, k ≠ j → ∀ x ∈ m.held k, x.2 ≠ id) :
    sentBy id (m.leaving c mAxisTready) = sentBy id (m.leavingOf c mAxisTready j) := by
  refine congrArg (List.map Prod.fst) (OrderedMux.filter_leaving ?_)
  intro k hk x hx
  simpa using h k hk x hx

/-! ## A cluster -/

/-- The first level for the cores of one cluster. -/
structure Cluster (S aw w : Nat) (M : Type) where
  inputRegister : Fin S → PipeRegister (Word M w)
  arbLvl1 : OrderedMux S (Word M w)
  stageFifo : BasicFifo aw (Word M w)

namespace Cluster
variable {S aw : Nat}

structure Inputs (S w : Nat) (M : Type) where
  sAxisTvalid : Fin S → Bool
  sAxis : Fin S → Word M w
  choice : OrderedMux.Choice S
  mAxisTready : Bool

section Module
variable (c : Cluster S aw w M) (i : Inputs S w M)

/-- With one core in a cluster its register leads straight on. -/
def regInputs (s : Fin S) : PipeRegister.Inputs (Word M w) where
  rst := false
  dinValid := i.sAxisTvalid s
  din := i.sAxis s
  doutReady := if S = 1 then i.mAxisTready else i.choice.ready s

def sAxisTready (s : Fin S) : Bool := (c.inputRegister s).dinReady 2 (regInputs i s)

def regTvalid (s : Fin S) : Bool := (c.inputRegister s).doutValid 2 (regInputs i s)

def regWord (s : Fin S) : Word M w := (c.inputRegister s).dout 2 (regInputs i s)

def muxTvalid (s : Fin S) : Bool := !decide (S = 1) && c.regTvalid i s

def fifoInputs : BasicFifo.Inputs (Word M w) where
  rst := false
  clear := false
  dinValid := (c.arbLvl1.offer i.choice).isSome
  din := ((c.arbLvl1.offer i.choice).map Prod.snd).getD c.stageFifo.dout
  doutReady := i.mAxisTready

def mAxisTvalid : Bool :=
  if h : S = 1 then c.regTvalid i ⟨0, by omega⟩ else c.stageFifo.doutValid

def mAxis : Word M w := if h : S = 1 then c.regWord i ⟨0, by omega⟩ else c.stageFifo.dout

def next : Cluster S aw w M where
  inputRegister s := (c.inputRegister s).next 2 (regInputs i s)
  arbLvl1 := c.arbLvl1.next i.choice (c.muxTvalid i) (c.regWord i) c.stageFifo.dinReady
  stageFifo := c.stageFifo.next (c.fifoInputs i)

/-- The word accepted from a core, and the word sent. -/
def accepts (s : Fin S) : List (Word M w) :=
  if i.sAxisTvalid s && c.sAxisTready i s then [i.sAxis s] else []

def sends : List (Word M w) :=
  if c.mAxisTvalid i && i.mAxisTready then [c.mAxis i] else []

end Module

/-- The messages of a core inside its cluster, oldest first. -/
def holding (c : Cluster S aw w M) (id : BitVec w) (s : Fin S) : List M :=
  sentBy id c.stageFifo.contents ++ sentBy id (c.arbLvl1.held s) ++
    sentBy id ((c.inputRegister s).contents 2)

/-- The words inside carry the ids of their cores, and a cluster of one core uses its input
register only. -/
structure Sound (c : Cluster S aw w M) (id : Fin S → BitVec w) : Prop where
  fifo : c.stageFifo.Valid
  regs : ∀ s, (c.inputRegister s).Valid 2
  regId : ∀ s, ∀ x ∈ (c.inputRegister s).contents 2, x.2 = id s
  muxId : ∀ s, ∀ x ∈ c.arbLvl1.held s, x.2 = id s
  fifoId : ∀ x ∈ c.stageFifo.contents, ∃ s, x.2 = id s
  single : S = 1 → c.stageFifo.contents = [] ∧ ∀ s, c.arbLvl1.held s = []

section Step
variable {c : Cluster S aw w M} {i : Inputs S w M} {id : Fin S → BitVec w}

/-- The word that enters the queue is the one that leaves the multiplexer. -/
theorem enque_eq : (if c.stageFifo.enque (c.fifoInputs i) then [(c.fifoInputs i).din] else []) =
    c.arbLvl1.leaving i.choice c.stageFifo.dinReady := by
  unfold OrderedMux.leaving BasicFifo.enque fifoInputs
  cases hr : c.stageFifo.dinReady <;> cases ho : c.arbLvl1.offer i.choice <;> simp

variable (h : c.Sound id) (hin : ∀ s, i.sAxisTvalid s = true → (i.sAxis s).2 = id s)
include h hin

theorem Sound.regWord_id {s : Fin S} (hv : c.regTvalid i s = true) : (c.regWord i s).2 = id s :=
  PipeRegister.forall_dout (Q := fun x => x.2 = id s) hv (h.regId s) (hin s)

theorem Sound.next (haw : 0 < aw) : (c.next i).Sound id := by
  refine ⟨h.fifo.next haw (c.fifoInputs i), fun s => (h.regs s).next (regInputs i s),
    fun s => ?_, fun s => ?_, ?_, fun h1 => ?_⟩
  · exact PipeRegister.forall_contents_next (h.regs s) rfl (h.regId s) (hin s)
  · refine OrderedMux.forall_held_next (Q := fun x : Word M w => x.2 = id s) (h.muxId s) ?_
    intro hv
    exact h.regWord_id hin (Bool.and_eq_true_iff.mp hv).2
  · refine BasicFifo.forall_contents_next (i := c.fifoInputs i)
      (Q := fun x : Word M w => ∃ s, x.2 = id s) h.fifo rfl h.fifoId ?_
    intro he
    have hmem : (c.fifoInputs i).din ∈ c.arbLvl1.leaving i.choice c.stageFifo.dinReady := by
      rw [← enque_eq, if_pos he]
      exact List.mem_singleton_self _
    obtain ⟨s, hs⟩ := OrderedMux.mem_leaving hmem
    exact ⟨s, h.muxId s _ hs⟩
  · obtain ⟨hfifo, hheld⟩ := h.single h1
    have hnext : ∀ s, (c.next i).arbLvl1.held s = [] := by
      intro s
      have hs := hheld s
      change ((c.arbLvl1.held s).drop _ ++ if _ then _ else _ : List (Word M w)) = []
      simp [hs, muxTvalid, h1]
    refine ⟨?_, hnext⟩
    have hcons := BasicFifo.conservation (i := c.fifoInputs i) h.fifo rfl
    have hnone : c.arbLvl1.leaving i.choice c.stageFifo.dinReady = [] := by
      by_contra hne
      obtain ⟨x, hx⟩ := List.exists_mem_of_ne_nil _ hne
      obtain ⟨s, hs⟩ := OrderedMux.mem_leaving hx
      rw [hheld s] at hs
      exact absurd hs List.not_mem_nil
    rw [enque_eq, hnone, hfifo] at hcons
    exact (List.append_eq_nil_iff.mp hcons.symm).2

theorem Sound.mAxis_id (hv : c.mAxisTvalid i = true) : ∃ s, (c.mAxis i).2 = id s := by
  unfold mAxisTvalid at hv
  unfold mAxis
  split at hv
  · rename_i h1
    rw [dif_pos h1]
    exact ⟨_, h.regWord_id hin hv⟩
  · rename_i h1
    rw [dif_neg h1]
    exact h.fifoId _ (h.fifo.dout_mem hv)

/-- **A cluster conserves the messages of each core.** -/
theorem Sound.conservation (hinj : Function.Injective id) (haw : 0 < aw) (s : Fin S) :
    c.holding (id s) s ++ sentBy (id s) (c.accepts i s) =
      sentBy (id s) (c.sends i) ++ (c.next i).holding (id s) s := by
  have hreg : sentBy (id s) ((c.inputRegister s).contents 2) ++ sentBy (id s) (c.accepts i s) =
      sentBy (id s) (if c.regTvalid i s && (regInputs i s).doutReady then [c.regWord i s] else [])
        ++ sentBy (id s) (((c.next i).inputRegister s).contents 2) := by
    rw [← sentBy_append, ← sentBy_append]
    exact congrArg (sentBy (id s)) (PipeRegister.conservation (i := regInputs i s) (h.regs s) rfl)
  unfold holding
  by_cases h1 : S = 1
  · -- one core: register and output are the same
    obtain ⟨hfifo, hheld⟩ := h.single h1
    obtain ⟨hfifo', hheld'⟩ := (h.next hin haw).single h1
    have hs : s = ⟨0, by omega⟩ := Fin.ext (by have := s.isLt; omega)
    have hsends : c.sends i = if c.regTvalid i s && (regInputs i s).doutReady then
        [c.regWord i s] else [] := by
      rw [sends, mAxisTvalid, mAxis, dif_pos h1, dif_pos h1, regInputs, if_pos h1, hs]
    rw [hfifo, hheld s, hfifo', hheld' s, hsends]
    exact hreg
  · have hmux := congrArg (sentBy (id s)) (c.arbLvl1.conservation i.choice
      (c.muxTvalid i) (c.regWord i) c.stageFifo.dinReady s)
    have hfifo := congrArg (sentBy (id s)) (BasicFifo.conservation (i := c.fifoInputs i) h.fifo rfl)
    rw [sentBy_append, sentBy_append] at hmux hfifo
    have hother : ∀ k, k ≠ s → ∀ x ∈ c.arbLvl1.held k, x.2 ≠ id s := by
      intro k hk x hx
      rw [h.muxId k x hx]
      exact fun heq => hk (hinj heq)
    have hout : (if c.regTvalid i s && (regInputs i s).doutReady then [c.regWord i s] else []) =
        if c.muxTvalid i s && i.choice.ready s then [c.regWord i s] else [] := by
      rw [muxTvalid, regInputs, if_neg h1, decide_eq_false h1]
      rfl
    have hsends : c.sends i = if c.stageFifo.deque (c.fifoInputs i) then [c.stageFifo.dout]
        else [] := by
      rw [sends, mAxisTvalid, mAxis, dif_neg h1, dif_neg h1]
      rfl
    rw [enque_eq, sentBy_leaving hother] at hfifo
    rw [hsends]
    rw [hout] at hreg
    exact Clocked.append_handover (Clocked.append_handover hfifo hmux) hreg

end Step
end Cluster
end SimpleArb2lvl

/-! ## Both levels -/

open SimpleArb2lvl in
structure SimpleArb2lvl (K S aw w : Nat) (M : Type) where
  clusters : Fin K → Cluster S aw w M
  arbLvl2 : OrderedMux K (Word M w)
  outputPipelineRegister : PipeRegister (Word M w)

namespace SimpleArb2lvl
variable {M : Type} {K S aw w : Nat}

structure Inputs (K S w : Nat) (M : Type) where
  sAxisTvalid : Fin K → Fin S → Bool
  sAxis : Fin K → Fin S → Word M w
  choice1 : Fin K → OrderedMux.Choice S
  choice2 : OrderedMux.Choice K
  mAxisTready : Bool

section Module
variable (a : SimpleArb2lvl K S aw w M) (i : Inputs K S w M)

def clusterInputs (j : Fin K) : Cluster.Inputs S w M where
  sAxisTvalid := i.sAxisTvalid j
  sAxis := i.sAxis j
  choice := i.choice1 j
  mAxisTready := i.choice2.ready j

def outputInputs : PipeRegister.Inputs (Word M w) where
  rst := false
  dinValid := (a.arbLvl2.offer i.choice2).isSome
  din := ((a.arbLvl2.offer i.choice2).map Prod.snd).getD a.outputPipelineRegister.doutReg
  doutReady := i.mAxisTready

def sAxisTready (j : Fin K) (s : Fin S) : Bool :=
  (a.clusters j).sAxisTready (clusterInputs i j) s

def mAxisTvalid : Bool := a.outputPipelineRegister.doutValid 2 (a.outputInputs i)

def mAxis : Word M w := a.outputPipelineRegister.dout 2 (a.outputInputs i)

def outputTready : Bool := a.outputPipelineRegister.dinReady 2 (a.outputInputs i)

def next : SimpleArb2lvl K S aw w M where
  clusters j := (a.clusters j).next (clusterInputs i j)
  arbLvl2 := a.arbLvl2.next i.choice2 (fun j => (a.clusters j).mAxisTvalid (clusterInputs i j))
    (fun j => (a.clusters j).mAxis (clusterInputs i j)) (a.outputTready i)
  outputPipelineRegister := a.outputPipelineRegister.next 2 (a.outputInputs i)

/-- The word sent. -/
def sends : List (Word M w) := if a.mAxisTvalid i && i.mAxisTready then [a.mAxis i] else []

end Module

/-- The messages of a core inside, oldest first. -/
def holding (a : SimpleArb2lvl K S aw w M) (id : BitVec w) (j : Fin K) (s : Fin S) : List M :=
  sentBy id (a.outputPipelineRegister.contents 2) ++ sentBy id (a.arbLvl2.held j) ++
    (a.clusters j).holding id s

/-- The words inside carry the ids of their cores. -/
structure Sound (a : SimpleArb2lvl K S aw w M) (id : Fin K → Fin S → BitVec w) : Prop where
  clusters : ∀ j, (a.clusters j).Sound (id j)
  register : a.outputPipelineRegister.Valid 2
  muxId : ∀ j, ∀ x ∈ a.arbLvl2.held j, ∃ s, x.2 = id j s
  registerId : ∀ x ∈ a.outputPipelineRegister.contents 2, ∃ j s, x.2 = id j s

section Step
variable {a : SimpleArb2lvl K S aw w M} {i : Inputs K S w M} {id : Fin K → Fin S → BitVec w}

/-- The word that enters the output register is the one that leaves the multiplexer. -/
theorem output_eq : (if (a.outputInputs i).dinValid && a.outputTready i then
      [(a.outputInputs i).din] else []) = a.arbLvl2.leaving i.choice2 (a.outputTready i) := by
  unfold OrderedMux.leaving
  cases hr : a.outputTready i <;> cases ho : a.arbLvl2.offer i.choice2 <;> simp [outputInputs, ho]

theorem Sound.outputs_id (h : a.Sound id) (hv : (a.outputInputs i).dinValid = true) :
    ∃ j s, (a.outputInputs i).din.2 = id j s := by
  obtain ⟨⟨j, x⟩, ho⟩ := Option.isSome_iff_exists.mp hv
  obtain ⟨rest, hrest⟩ := OrderedMux.offer_eq_some ho
  obtain ⟨s, hs⟩ := h.muxId j x (by simp [hrest])
  refine ⟨j, s, ?_⟩
  rw [outputInputs, ho]
  exact hs

theorem Sound.sends_id (h : a.Sound id) : ∀ x ∈ a.sends i, ∃ j s, x.2 = id j s := by
  intro x hx
  unfold sends at hx
  split at hx
  · rename_i hsend
    rw [List.mem_singleton.mp hx]
    exact PipeRegister.forall_dout (Q := fun x => ∃ j s, x.2 = id j s)
      (Bool.and_eq_true_iff.mp hsend).1 h.registerId h.outputs_id
  · exact absurd hx List.not_mem_nil

variable (h : a.Sound id)
  (hin : ∀ j s, i.sAxisTvalid j s = true → (i.sAxis j s).2 = id j s)
include h hin

theorem Sound.next (haw : 0 < aw) : (a.next i).Sound id := by
  refine ⟨fun j => (h.clusters j).next (hin j) haw, h.register.next (a.outputInputs i),
    fun j => ?_, ?_⟩
  · refine OrderedMux.forall_held_next (Q := fun x : Word M w => ∃ s, x.2 = id j s) (h.muxId j) ?_
    intro hv
    refine (h.clusters j).mAxis_id (hin j) hv
  · exact PipeRegister.forall_contents_next h.register rfl h.registerId h.outputs_id

/-- **Both levels conserve the messages of each core.** -/
theorem Sound.conservation (hinj : ∀ j s j' s', id j s = id j' s' → j = j' ∧ s = s')
    (haw : 0 < aw) (j : Fin K) (s : Fin S) :
    a.holding (id j s) j s ++ sentBy (id j s) ((a.clusters j).accepts (clusterInputs i j) s) =
      sentBy (id j s) (a.sends i) ++ (a.next i).holding (id j s) j s := by
  have hcluster := (h.clusters j).conservation (i := clusterInputs i j) (hin j)
    (fun s s' heq => (hinj j s j s' heq).2) haw s
  have hmux := congrArg (sentBy (id j s)) (a.arbLvl2.conservation i.choice2
    (fun j => (a.clusters j).mAxisTvalid (clusterInputs i j))
    (fun j => (a.clusters j).mAxis (clusterInputs i j)) (a.outputTready i) j)
  rw [sentBy_append, sentBy_append] at hmux
  have hother : ∀ k, k ≠ j → ∀ x ∈ a.arbLvl2.held k, x.2 ≠ id j s := by
    intro k hk x hx
    obtain ⟨t, ht⟩ := h.muxId k x hx
    rw [ht]
    exact fun heq => hk (hinj k t j s heq).1
  have hreg : sentBy (id j s) (a.outputPipelineRegister.contents 2) ++
      sentBy (id j s) (a.arbLvl2.leavingOf i.choice2 (a.outputTready i) j) =
        sentBy (id j s) (a.sends i) ++
          sentBy (id j s) ((a.next i).outputPipelineRegister.contents 2) := by
    rw [← sentBy_leaving hother, ← output_eq, ← sentBy_append, ← sentBy_append]
    exact congrArg (sentBy (id j s)) (PipeRegister.conservation h.register rfl)
  exact Clocked.append_handover (Clocked.append_handover hreg hmux) hcluster

end Step
end SimpleArb2lvl
end Rosebud
