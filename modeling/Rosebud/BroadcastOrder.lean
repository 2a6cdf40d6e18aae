import Rosebud.BroadcastMerge
import Rosebud.Clocked
import Rosebud.PipeRegister
import Rosebud.Selectors

/-! # Broadcast messages: from every RPU to every other one

A message leaves an RPU through a register (`bc_msg_out_reg`) and a queue
(`core_msg_out_fifo`), gets the id of its core, and is merged with the messages of all
cores (`bc_msg_merger`).  The merged stream has no ready: it is copied once per cluster, then
once per core, passes two more registers, and `rpu_intercon` masks a core's own messages
before the last register, `bc_msg_in_reg`.

The network is closed by what the RPUs send and by what the multiplexers decide.
`accepted`, `merged` and `seen` log the messages taken from a core, those that leave the
merger and those that reach a core.  `broadcast_in_one_order` says that the merged stream is
one sequence for all cores: it has the messages of each core in the order they were
accepted, all but those still waiting, and each core sees all of it but its own.
-/
namespace Rosebud.BroadcastOrder

open Clocked SimpleArb2lvl

/-! ## The network -/

structure Config where
  bcMsgClusters : Nat
  coresPerCluster : Nat
  regType : Nat
  msgFifoDepth : Nat
  one_lt_msgFifoDepth : 1 < msgFifoDepth

namespace Config
variable (p : Config)

def coreCount : Nat := p.bcMsgClusters * p.coresPerCluster

/-- `CORE_WIDTH`. -/
def coreWidth : Nat := clog2 p.coreCount

/-- A core as its cluster and its place there. -/
abbrev Core := Fin p.bcMsgClusters × Fin p.coresPerCluster

/-- `STAGE_FIFO_DEPTH` is 16. -/
def stageWidth : Nat := clog2 16

theorem stageWidth_pos : 0 < stageWidth := by decide

end Config

variable {p : Config}

/-- The number of a core. -/
def index (c : p.Core) : Nat := c.1 * p.coresPerCluster + c.2

def coreId (c : p.Core) : BitVec p.coreWidth := BitVec.ofNat _ (index c)

/-- The copy of the merged stream a core gets: `CORES_PER_CLUSTER` repetitions of all copies
are dealt out to the cores. -/
def copyOf (c : p.Core) : Fin p.bcMsgClusters :=
  ⟨index c % p.bcMsgClusters, Nat.mod_lt _ (Nat.lt_of_le_of_lt (Nat.zero_le _) c.1.isLt)⟩

structure Network (p : Config) (M : Type) where
  bcMsgOutReg : p.Core → PipeRegister M
  coreMsgOutFifo : p.Core → BasicFifo (clog2 p.msgFifoDepth) M
  bcMsgOutRegister : p.Core → PipeRegister (Word M p.coreWidth)
  coresToBroadcaster :
    SimpleArb2lvl p.bcMsgClusters p.coresPerCluster Config.stageWidth p.coreWidth M
  coreMsgMergedValidR : Fin p.bcMsgClusters → Bool
  coreMsgMergedR : Fin p.bcMsgClusters → Word M p.coreWidth
  mAxisTvalidN : p.Core → Bool
  mAxisN : p.Core → Word M p.coreWidth
  mAxisTvalidR : p.Core → Bool
  mAxisR : p.Core → Word M p.coreWidth
  bcMsgInValid : p.Core → Bool
  bcMsgIn : p.Core → M
  bcMsgInReg : p.Core → PipeRegister M

/-- What the RPUs send in a cycle, and what the multiplexers decide. -/
structure Cycle (p : Config) (M : Type) where
  bcMsgOutValidN : p.Core → Bool
  bcMsgOutN : p.Core → M
  choice1 : Fin p.bcMsgClusters → OrderedMux.Choice p.coresPerCluster
  choice2 : OrderedMux.Choice p.bcMsgClusters

namespace Network
variable {M : Type}

section Wires
variable (n : Network p M) (i : Cycle p M)

/-- The merger's first register without its ready: valid and word do not depend on it. -/
def mergerOffer (c : p.Core) : PipeRegister.Inputs (Word M p.coreWidth) where
  rst := false
  dinValid := (n.coreMsgOutFifo c).doutValid
  din := ((n.coreMsgOutFifo c).dout, coreId c)
  doutReady := false

def arbInputs : SimpleArb2lvl.Inputs p.bcMsgClusters p.coresPerCluster p.coreWidth M where
  sAxisTvalid j s := (n.bcMsgOutRegister (j, s)).doutValid p.regType (n.mergerOffer (j, s))
  sAxis j s := (n.bcMsgOutRegister (j, s)).dout p.regType (n.mergerOffer (j, s))
  choice1 := i.choice1
  choice2 := i.choice2
  mAxisTready := true

def mergerInputs (c : p.Core) : PipeRegister.Inputs (Word M p.coreWidth) :=
  { n.mergerOffer c with
    doutReady := n.coresToBroadcaster.sAxisTready (n.arbInputs i) c.1 c.2 }

def outRegInputs (c : p.Core) : PipeRegister.Inputs M where
  rst := false
  dinValid := i.bcMsgOutValidN c
  din := i.bcMsgOutN c
  doutReady := (n.coreMsgOutFifo c).dinReady

def outFifoInputs (c : p.Core) : BasicFifo.Inputs M where
  rst := false
  clear := false
  dinValid := (n.bcMsgOutReg c).doutValid 2 (n.outRegInputs i c)
  din := (n.bcMsgOutReg c).dout 2 (n.outRegInputs i c)
  doutReady := (n.bcMsgOutRegister c).dinReady p.regType (n.mergerInputs i c)

/-- The last register ignores its own ready and is always read. -/
def inRegInputs (c : p.Core) : PipeRegister.Inputs M where
  rst := false
  dinValid := n.bcMsgInValid c
  din := n.bcMsgIn c
  doutReady := true

def next : Network p M where
  bcMsgOutReg c := (n.bcMsgOutReg c).next 2 (n.outRegInputs i c)
  coreMsgOutFifo c := (n.coreMsgOutFifo c).next (n.outFifoInputs i c)
  bcMsgOutRegister c := (n.bcMsgOutRegister c).next p.regType (n.mergerInputs i c)
  coresToBroadcaster := n.coresToBroadcaster.next (n.arbInputs i)
  coreMsgMergedValidR _ := n.coresToBroadcaster.mAxisTvalid (n.arbInputs i)
  coreMsgMergedR _ := n.coresToBroadcaster.mAxis (n.arbInputs i)
  mAxisTvalidN c := n.coreMsgMergedValidR (copyOf c)
  mAxisN c := n.coreMsgMergedR (copyOf c)
  mAxisTvalidR := n.mAxisTvalidN
  mAxisR := n.mAxisN
  bcMsgInValid c := n.mAxisTvalidR c && decide ((n.mAxisR c).2 ≠ coreId c)
  bcMsgIn c := (n.mAxisR c).1
  bcMsgInReg c := (n.bcMsgInReg c).next 2 (n.inRegInputs c)

/-- The message taken from a core. -/
def accepts (c : p.Core) : List M :=
  if i.bcMsgOutValidN c && (n.bcMsgOutReg c).dinReady 2 (n.outRegInputs i c) then [i.bcMsgOutN c]
  else []

/-- The message that leaves the merger. -/
def merges : List (Word M p.coreWidth) := n.coresToBroadcaster.sends (n.arbInputs i)

/-- The message that reaches a core. -/
def shows (c : p.Core) : List M :=
  if (n.bcMsgInReg c).doutValid 2 (n.inRegInputs c) then [(n.bcMsgInReg c).dout 2 (n.inRegInputs c)]
  else []

end Wires

/-- The messages of a core that wait to be merged, oldest first. -/
def waiting (n : Network p M) (c : p.Core) : List M :=
  n.coresToBroadcaster.holding (coreId c) c.1 c.2 ++
    sentBy (coreId c) ((n.bcMsgOutRegister c).contents p.regType) ++
    (n.coreMsgOutFifo c).contents ++ (n.bcMsgOutReg c).contents 2

/-- The network after a reset; the data registers hold anything. -/
structure Start (n : Network p M) : Prop where
  bcMsgOutReg : ∀ c, (n.bcMsgOutReg c).Fresh
  coreMsgOutFifo : ∀ c, (n.coreMsgOutFifo c).Fresh
  bcMsgOutRegister : ∀ c, (n.bcMsgOutRegister c).Fresh
  inputRegister : ∀ j s, ((n.coresToBroadcaster.clusters j).inputRegister s).Fresh
  arbLvl1 : ∀ j s, (n.coresToBroadcaster.clusters j).arbLvl1.held s = []
  stageFifo : ∀ j, (n.coresToBroadcaster.clusters j).stageFifo.Fresh
  arbLvl2 : ∀ j, n.coresToBroadcaster.arbLvl2.held j = []
  outputRegister : n.coresToBroadcaster.outputPipelineRegister.Fresh
  coreMsgMergedValidR : ∀ j, n.coreMsgMergedValidR j = false
  mAxisTvalidN : ∀ c, n.mAxisTvalidN c = false
  mAxisTvalidR : ∀ c, n.mAxisTvalidR c = false
  bcMsgInValid : ∀ c, n.bcMsgInValid c = false
  bcMsgInReg : ∀ c, (n.bcMsgInReg c).Fresh

end Network

/-! ## Logs -/

structure Bench (p : Config) (M : Type) where
  net : Network p M
  accepted : p.Core → List M
  merged : List (Word M p.coreWidth)
  seen : p.Core → List M

namespace Bench
variable {M : Type}

def clock (b : Bench p M) (i : Cycle p M) : Bench p M where
  net := b.net.next i
  accepted c := b.accepted c ++ b.net.accepts i c
  merged := b.merged ++ b.net.merges i
  seen c := b.seen c ++ b.net.shows c

structure Start (b : Bench p M) : Prop where
  net : b.net.Start
  accepted : ∀ c, b.accepted c = []
  merged : b.merged = []
  seen : ∀ c, b.seen c = []

end Bench

/-! ## Ids -/

theorem index_lt (c : p.Core) : index c < p.coreCount := by
  have h1 := c.1.isLt
  calc c.1 * p.coresPerCluster + c.2 < c.1 * p.coresPerCluster + p.coresPerCluster := by omega
    _ = (c.1 + 1) * p.coresPerCluster := by rw [Nat.add_mul, Nat.one_mul]
    _ ≤ p.coreCount := Nat.mul_le_mul_right _ h1

theorem index_inj {c d : p.Core} (h : index c = index d) : c = d := by
  have hd := d.2.isLt
  have hpos : 0 < p.coresPerCluster := by omega
  have hdiv : ∀ e : p.Core, index e / p.coresPerCluster = e.1 := by
    intro e
    rw [index, Nat.mul_comm, Nat.mul_add_div hpos, Nat.div_eq_of_lt e.2.isLt, Nat.add_zero]
  have hmod : ∀ e : p.Core, index e % p.coresPerCluster = e.2 := by
    intro e
    rw [index, Nat.mul_comm, Nat.mul_add_mod, Nat.mod_eq_of_lt e.2.isLt]
  refine Prod.ext (Fin.ext ?_) (Fin.ext ?_)
  · rw [← hdiv c, h, hdiv d]
  · rw [← hmod c, h, hmod d]

/-- The ids are wide enough for all cores. -/
theorem coreId_inj {c d : p.Core} (h : coreId c = coreId d) : c = d := by
  have hbound : ∀ e : p.Core, index e < 2 ^ p.coreWidth := fun e =>
    Nat.lt_of_lt_of_le (index_lt e) (le_two_pow_clog2 _)
  have hnat := congrArg BitVec.toNat h
  rw [coreId, coreId, BitVec.toNat_ofNat, BitVec.toNat_ofNat, Nat.mod_eq_of_lt (hbound c),
    Nat.mod_eq_of_lt (hbound d)] at hnat
  exact index_inj hnat

/-! ## Towards the merger -/

section Merge
variable {M : Type} {n : Network p M} {i : Cycle p M}

/-- The stages before the merged stream are in order, and their words carry the right ids. -/
structure Sending (n : Network p M) : Prop where
  outReg : ∀ c, (n.bcMsgOutReg c).Valid 2
  fifo : ∀ c, (n.coreMsgOutFifo c).Valid
  register : ∀ c, (n.bcMsgOutRegister c).Valid p.regType
  registerId : ∀ c, ∀ x ∈ (n.bcMsgOutRegister c).contents p.regType, x.2 = coreId c
  arb : n.coresToBroadcaster.Sound fun j s => coreId (j, s)

theorem Sending.arbInputs_id (h : Sending n) (j : Fin p.bcMsgClusters)
    (s : Fin p.coresPerCluster) (hv : (n.arbInputs i).sAxisTvalid j s = true) :
    ((n.arbInputs i).sAxis j s).2 = coreId (j, s) :=
  PipeRegister.forall_dout (i := n.mergerOffer (j, s))
    (Q := fun x : Word M p.coreWidth => x.2 = coreId (j, s)) hv
    (h.registerId (j, s)) fun _ => rfl

theorem Sending.next (h : Sending n) (i : Cycle p M) : Sending (n.next i) where
  outReg c := (h.outReg c).next (n.outRegInputs i c)
  fifo c := (h.fifo c).next (clog2_pos p.one_lt_msgFifoDepth) (n.outFifoInputs i c)
  register c := (h.register c).next (n.mergerInputs i c)
  registerId c := PipeRegister.forall_contents_next (i := n.mergerInputs i c)
    (Q := fun x : Word M p.coreWidth => x.2 = coreId c) (h.register c) rfl (h.registerId c)
    fun _ => rfl
  arb := h.arb.next h.arbInputs_id Config.stageWidth_pos

/-- The word the merger takes is the one its first register sends. -/
theorem cluster_accepts (c : p.Core) :
    (n.coresToBroadcaster.clusters c.1).accepts (clusterInputs (n.arbInputs i) c.1) c.2 =
      if (n.bcMsgOutRegister c).doutValid p.regType (n.mergerInputs i c) &&
          (n.mergerInputs i c).doutReady then
        [(n.bcMsgOutRegister c).dout p.regType (n.mergerInputs i c)] else [] := rfl

/-- Every word from the queue of a core gets its id. -/
theorem sentBy_register (c : p.Core) :
    sentBy (coreId c) (if (n.mergerInputs i c).dinValid &&
        (n.bcMsgOutRegister c).dinReady p.regType (n.mergerInputs i c) then
        [(n.mergerInputs i c).din] else []) =
      if (n.coreMsgOutFifo c).deque (n.outFifoInputs i c) then [(n.coreMsgOutFifo c).dout]
      else [] := by
  change sentBy (coreId c) (if (n.coreMsgOutFifo c).deque (n.outFifoInputs i c) then
    [((n.coreMsgOutFifo c).dout, coreId c)] else []) = _
  split
  · simp [sentBy]
  · rfl

/-- **The messages of a core on their way to the merged stream.** -/
theorem Sending.conservation (h : Sending n) (i : Cycle p M) (c : p.Core) :
    n.waiting c ++ n.accepts i c =
      sentBy (coreId c) (n.merges i) ++ (n.next i).waiting c := by
  have harb := h.arb.conservation h.arbInputs_id (i := n.arbInputs i)
    (fun j s j' s' heq => Prod.mk.inj (coreId_inj heq)) Config.stageWidth_pos c.1 c.2
  have hreg := congrArg (sentBy (coreId c))
    (PipeRegister.conservation (i := n.mergerInputs i c) (h.register c) rfl)
  rw [sentBy_append, sentBy_append, sentBy_register, ← cluster_accepts] at hreg
  have hfifo := BasicFifo.conservation (i := n.outFifoInputs i c) (h.fifo c) rfl
  have hout := PipeRegister.conservation (i := n.outRegInputs i c) (h.outReg c) rfl
  exact append_handover (append_handover (append_handover harb hreg) hfifo) hout

theorem Sending.merges_id (h : Sending n) : ∀ x ∈ n.merges i, ∃ c : p.Core, x.2 = coreId c := by
  intro x hx
  obtain ⟨j, s, hid⟩ := h.arb.sends_id x hx
  exact ⟨(j, s), hid⟩

theorem Network.Start.sending (h : n.Start) : Sending n where
  outReg c := (h.bcMsgOutReg c).valid
  fifo c := (h.coreMsgOutFifo c).valid
  register c := (h.bcMsgOutRegister c).valid
  registerId c := by simp [(h.bcMsgOutRegister c).contents_eq]
  arb := by
    refine ⟨fun j => ⟨(h.stageFifo j).valid, fun s => (h.inputRegister j s).valid, ?_, ?_, ?_, ?_⟩,
      h.outputRegister.valid, ?_, ?_⟩
    · simp [(h.inputRegister j _).contents_eq]
    · simp [h.arbLvl1 j]
    · simp [(h.stageFifo j).contents_eq]
    · exact fun _ => ⟨(h.stageFifo j).contents_eq, h.arbLvl1 j⟩
    · simp [h.arbLvl2]
    · simp [h.outputRegister.contents_eq]

theorem Network.Start.waiting_eq (h : n.Start) (c : p.Core) : n.waiting c = [] := by
  simp [waiting, SimpleArb2lvl.holding, Cluster.holding, h.outputRegister.contents_eq, h.arbLvl2,
    (h.stageFifo c.1).contents_eq, h.arbLvl1, (h.inputRegister c.1 c.2).contents_eq,
    (h.bcMsgOutRegister c).contents_eq, (h.coreMsgOutFifo c).contents_eq,
    (h.bcMsgOutReg c).contents_eq]

end Merge

/-! ## Towards the cores -/

section Hear
variable {M : Type} {n : Network p M} {i : Cycle p M} {c : p.Core}

/-- The messages that are not a core's own. -/
def heardBy (c : p.Core) (l : List (Word M p.coreWidth)) : List M :=
  (l.filter fun x => decide (x.2 ≠ coreId c)).map Prod.fst

@[simp] theorem heardBy_nil : heardBy c ([] : List (Word M p.coreWidth)) = [] := rfl

@[simp] theorem heardBy_append (l l' : List (Word M p.coreWidth)) :
    heardBy c (l ++ l') = heardBy c l ++ heardBy c l' := by
  simp [heardBy]

/-- What the registers from the merged stream to a core hold for it, the last one first. -/
def Network.arriving (n : Network p M) (c : p.Core) : List (List M) :=
  [(n.bcMsgInReg c).contents 2,
    if n.bcMsgInValid c then [n.bcMsgIn c] else [],
    heardBy c (if n.mAxisTvalidR c then [n.mAxisR c] else []),
    heardBy c (if n.mAxisTvalidN c then [n.mAxisN c] else []),
    heardBy c (if n.coreMsgMergedValidR (copyOf c) then [n.coreMsgMergedR (copyOf c)] else [])]

/-- The last register is ready, or is just out of reset and nothing comes: its ready may be
ignored. -/
def Open (n : Network p M) (c : p.Core) : Prop :=
  (n.bcMsgInReg c).nFull = false → (n.bcMsgInReg c).nEmpty = false ∧ n.bcMsgInValid c = false

theorem open_next : Open (n.next i) c := by
  intro hfull
  -- a register that is read in every cycle is ready after it
  change ((n.bcMsgInReg c).skidFlags (n.inRegInputs c)).1 = false at hfull
  cases hf : (n.bcMsgInReg c).nFull <;> cases he : (n.bcMsgInReg c).nEmpty <;>
    cases hv : n.bcMsgInValid c <;>
    simp [PipeRegister.skidFlags, Network.inRegInputs, hf, he, hv] at hfull

/-- An open last register passes on what it holds and takes what comes. -/
theorem Open.contents_next (h : Open n c) : ((n.next i).bcMsgInReg c).contents 2 =
    if n.bcMsgInValid c then [n.bcMsgIn c] else [] := by
  change ((n.bcMsgInReg c).next 2 (n.inRegInputs c)).contents 2 = _
  cases hf : (n.bcMsgInReg c).nFull with
  | false =>
    obtain ⟨he, hv⟩ := h hf
    simp [PipeRegister.contents, PipeRegister.next, PipeRegister.nextSkid, PipeRegister.skidFlags,
      Network.inRegInputs, hf, he, hv]
  | true =>
    cases he : (n.bcMsgInReg c).nEmpty <;> cases hv : n.bcMsgInValid c <;>
      simp [PipeRegister.contents, PipeRegister.next, PipeRegister.nextSkid,
        PipeRegister.skidFlags, Network.inRegInputs, hf, he, hv]

theorem Open.shows_eq (h : Open n c) : n.shows c = (n.bcMsgInReg c).contents 2 := by
  unfold Network.shows PipeRegister.contents
  cases hf : (n.bcMsgInReg c).nFull with
  | false => simp [PipeRegister.doutValid, (h hf).1]
  | true => cases he : (n.bcMsgInReg c).nEmpty <;>
      simp [PipeRegister.doutValid, PipeRegister.dout, he]

/-- **The way to a core is a shift register**: nothing stops it. -/
theorem Open.arriving_next (h : Open n c) :
    (n.next i).arriving c = (n.arriving c).tail ++ [heardBy c (n.merges i)] := by
  have hin : (if (n.next i).bcMsgInValid c then [(n.next i).bcMsgIn c] else []) =
      heardBy c (if n.mAxisTvalidR c then [n.mAxisR c] else []) := by
    change (if n.mAxisTvalidR c && decide ((n.mAxisR c).2 ≠ coreId c) then [(n.mAxisR c).1]
      else []) = _
    cases hv : n.mAxisTvalidR c
    · rfl
    · by_cases hid : (n.mAxisR c).2 = coreId c <;> simp [heardBy, hid]
  have hmerges : n.merges i = if n.coresToBroadcaster.mAxisTvalid (n.arbInputs i) then
      [n.coresToBroadcaster.mAxis (n.arbInputs i)] else [] := by
    unfold Network.merges SimpleArb2lvl.sends
    rw [show (n.arbInputs i).mAxisTready = true from rfl, Bool.and_true]
  unfold Network.arriving
  rw [h.contents_next, hin, hmerges]
  rfl

theorem Network.Start.open (h : n.Start) : Open n c :=
  fun _ => ⟨(h.bcMsgInReg c).2.1, h.bcMsgInValid c⟩

theorem Network.Start.arriving_eq (h : n.Start) : (n.arriving c).flatten = [] := by
  simp [Network.arriving, (h.bcMsgInReg c).contents_eq, h.bcMsgInValid, h.mAxisTvalidR,
    h.mAxisTvalidN, h.coreMsgMergedValidR]

end Hear

/-! ## Whole runs -/

namespace Bench
variable {M : Type} {b : Bench p M}

/-- The merged stream is one sequence for all cores. -/
structure Ordered (b : Bench p M) : Prop where
  sending : Sending b.net
  mergedId : ∀ x ∈ b.merged, ∃ c : p.Core, x.2 = coreId c
  merged : ∀ c, sentBy (coreId c) b.merged ++ b.net.waiting c = b.accepted c
  opened : ∀ c, Open b.net c
  seen : ∀ c, b.seen c ++ (b.net.arriving c).flatten = heardBy c b.merged

theorem Start.ordered (h : b.Start) : b.Ordered where
  sending := h.net.sending
  mergedId := by simp [h.merged]
  merged c := by simp [h.merged, h.accepted, h.net.waiting_eq]
  opened _ := h.net.open
  seen c := by simp [h.merged, h.seen, h.net.arriving_eq]

theorem Ordered.seen_clock (h : b.Ordered) (i : Cycle p M) (c : p.Core) :
    (b.clock i).seen c = b.seen c ++ ((b.net.arriving c).take 1).flatten := by
  change b.seen c ++ b.net.shows c = _
  rw [(h.opened c).shows_eq]
  simp [Network.arriving]

theorem Ordered.clock (h : b.Ordered) (i : Cycle p M) : (Bench.clock b i).Ordered where
  sending := h.sending.next i
  mergedId x hx := by
    rcases List.mem_append.mp hx with hold | hnew
    · exact h.mergedId x hold
    · exact h.sending.merges_id x hnew
  merged c := by
    change sentBy (coreId c) (b.merged ++ b.net.merges i) ++ (b.net.next i).waiting c =
      b.accepted c ++ b.net.accepts i c
    rw [← h.merged c, sentBy_append, List.append_assoc, List.append_assoc,
      h.sending.conservation i c]
  opened _ := open_next
  seen c := by
    rw [h.seen_clock i c]
    change _ ++ ((b.net.next i).arriving c).flatten = heardBy c (b.merged ++ b.net.merges i)
    rw [(h.opened c).arriving_next, heardBy_append, ← h.seen c]
    simp [Network.arriving]

theorem Ordered.run (h : b.Ordered) (cycles : List (Cycle p M)) :
    (Clocked.run Bench.clock b cycles).Ordered :=
  run_preserves (fun _ i hs => hs.clock i) h cycles

theorem merged_run (cycles : List (Cycle p M)) :
    b.merged <+: (Clocked.run Bench.clock b cycles).merged := by
  induction cycles generalizing b with
  | nil => exact List.prefix_refl _
  | cons i cycles ih => exact (List.prefix_append _ _).trans (ih (b := Bench.clock b i))

/-- In up to five cycles a core sees what was on its way to it, however the cycles are. -/
theorem Ordered.seen_run (h : b.Ordered) (c : p.Core) (later : List (Cycle p M))
    (hlen : later.length ≤ 5) : (Clocked.run Bench.clock b later).seen c =
      b.seen c ++ ((b.net.arriving c).take later.length).flatten := by
  induction later generalizing b with
  | nil => simp
  | cons i later ih =>
    have hlen' : later.length ≤ 4 := Nat.le_of_succ_le_succ hlen
    have htail : (b.net.arriving c).tail.length = 4 := rfl
    rw [run_cons, ih (h.clock i) (by omega), h.seen_clock i c]
    change _ ++ (((b.net.next i).arriving c).take later.length).flatten = _
    rw [(h.opened c).arriving_next, List.take_append_of_le_length (by omega), List.append_assoc,
      ← List.flatten_append]
    rfl

end Bench

/-- **All cores see one sequence.**  In every run from reset, whatever the RPUs send and
however the multiplexers choose: every word of the merged stream is of some core; the
messages of a core in it, followed by those that still wait, are the accepted ones in their
order; what a core has seen is an initial part of the stream without its own messages.
However the run goes on, the stream only grows, and five cycles later each core has seen all
of what it was without its own messages. -/
theorem broadcast_in_one_order {M : Type} (b : Bench p M) (hb : b.Start)
    (cycles : List (Cycle p M)) :
    (∀ x ∈ (run Bench.clock b cycles).merged, ∃ c : p.Core, x.2 = coreId c) ∧
      (∀ c, sentBy (coreId c) (run Bench.clock b cycles).merged ++
        (run Bench.clock b cycles).net.waiting c = (run Bench.clock b cycles).accepted c) ∧
      (∀ c, (run Bench.clock b cycles).seen c <+:
        heardBy c (run Bench.clock b cycles).merged) ∧
      ∀ later : List (Cycle p M),
        (run Bench.clock b cycles).merged <+: (run Bench.clock b (cycles ++ later)).merged ∧
          (later.length = 5 → ∀ c, (run Bench.clock b (cycles ++ later)).seen c =
            heardBy c (run Bench.clock b cycles).merged) := by
  have h := hb.ordered.run cycles
  refine ⟨h.mergedId, h.merged, fun c => ⟨_, h.seen c⟩, fun later => ?_⟩
  rw [run_append]
  refine ⟨Bench.merged_run later, fun hlen c => ?_⟩
  rw [h.seen_run c later hlen.le, hlen, ← h.seen c]
  rfl

/-! ## Two clusters of two cores -/

def fourCores : Config where
  bcMsgClusters := 2
  coresPerCluster := 2
  regType := 0
  msgFifoDepth := 2
  one_lt_msgFifoDepth := Nat.one_lt_two

/-- The network after a reset, with no message so far. -/
def quiet : Bench fourCores Nat where
  net :=
    { bcMsgOutReg := fun _ => default
      coreMsgOutFifo := fun _ => default
      bcMsgOutRegister := fun _ => default
      coresToBroadcaster :=
        { clusters := fun _ =>
            ⟨fun _ => default, ⟨fun _ => []⟩,
              default⟩
          arbLvl2 := ⟨fun _ => []⟩
          outputPipelineRegister := default }
      coreMsgMergedValidR := fun _ => false
      coreMsgMergedR := fun _ => (0, 0)
      mAxisTvalidN := fun _ => false
      mAxisN := fun _ => (0, 0)
      mAxisTvalidR := fun _ => false
      mAxisR := fun _ => (0, 0)
      bcMsgInValid := fun _ => false
      bcMsgIn := fun _ => 0
      bcMsgInReg := fun _ => default }
  accepted := fun _ => []
  merged := []
  seen := fun _ => []

theorem quiet_start : quiet.Start where
  net :=
    { bcMsgOutReg := fun _ => .default
      coreMsgOutFifo := fun _ => .default
      bcMsgOutRegister := fun _ => .default
      inputRegister := fun _ _ => .default
      arbLvl1 := fun _ _ => rfl
      stageFifo := fun _ => .default
      arbLvl2 := fun _ => rfl
      outputRegister := .default
      coreMsgMergedValidR := fun _ => rfl
      mAxisTvalidN := fun _ => rfl
      mAxisTvalidR := fun _ => rfl
      bcMsgInValid := fun _ => rfl
      bcMsgInReg := fun _ => .default }
  accepted := fun _ => rfl
  merged := rfl
  seen := fun _ => rfl

/-- Each core offers its own number; the multiplexers accept from all ports and offer the given
ones. -/
def offering (valid : fourCores.Core → Bool) (port1 port2 : Fin 2) : Cycle fourCores Nat where
  bcMsgOutValidN := valid
  bcMsgOutN := index
  choice1 := fun _ => ⟨fun _ => true, some port1⟩
  choice2 := ⟨fun _ => true, some port2⟩

/-- Every core sends once; the clusters are served in turn. -/
def allSend : List (Cycle fourCores Nat) :=
  offering (fun _ => false) 0 0 :: offering (fun _ => true) 0 0 ::
    [(0, 0), (0, 0), (0, 0), (0, 0), (1, 0), (1, 1), (1, 0), (1, 1), (1, 0), (1, 0)].map
      fun x => offering (fun _ => false) x.1 x.2

theorem allSend_merged :
    (run Bench.clock quiet allSend).merged = [(2, 2), (0, 0), (3, 3), (1, 1)] := by
  decide +kernel

/-- Four cores that send at once: all four agree on the order. -/
theorem broadcast_in_one_order_four : quiet.Start ∧
    ∀ later : List (Cycle fourCores Nat), later.length = 5 → ∀ c,
      (run Bench.clock quiet (allSend ++ later)).seen c =
        heardBy c [(2, 2), (0, 0), (3, 3), (1, 1)] := by
  refine ⟨quiet_start, fun later hlen c => ?_⟩
  rw [((broadcast_in_one_order quiet quiet_start allSend).2.2.2 later).2 hlen c, allSend_merged]

end Rosebud.BroadcastOrder
