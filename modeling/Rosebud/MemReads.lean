import Rosebud.MemSys

/-! # The reads of `mem_sys`

A read of the DMA passes a queue, is made at the port of a bank, and its line comes back
through the registers behind the memory into a queue of answers.  The two memories do this
in their own time: the data memory answers in the next cycle, the packet memory registers
the access first and has two or three registers behind it.

For each of the two, `requests` are the reads that are queued or before the memory,
`reading` is the line that is read in a cycle, `words` are the lines read that are still in
the registers, and `responses` are the queued answers.  One conservation law relates each
with the next; nothing else is needed about the registers.  The queues of the answers are
pushed without looking, so that the law for them needs room in the queue.
-/
namespace Rosebud.MemSys
variable {M : MemConfig}

/-- A line to be read, by its number. -/
inductive Target where
  | dmem (n : Nat)
  | pmem (n : Nat)
deriving DecidableEq

/-- The line a command asks for: the packet memory begins at 16 MB, the data memory at 0. -/
def targetOf (M : MemConfig) (addr : BitVec 26) : Target :=
  if 2 ^ 24 ≤ addr.toNat ∧ addr.toNat < 2 ^ 25 then
    .pmem (addr.toNat % 2 ^ M.pmemAw / M.strbWidth)
  else .dmem (addr.toNat % 2 ^ M.dmemAw / M.strbWidth)

/-- The line of an address of the data memory. -/
def dmemTarget (addr : BitVec M.dmemAw) : Target := .dmem (addr.toNat / M.strbWidth)

/-- The line of an address of the packet memory. -/
def pmemTarget (addr : BitVec M.pmemAw) : Target := .pmem (addr.toNat / M.strbWidth)

/-- What is in a line. -/
def lineAt (s : MemSys M) : Target → Word M
  | .dmem n => s.dmemAt n
  | .pmem n => s.pmemAt n

theorem isPmem_iff (addr : BitVec 26) :
    isPmem addr = true ↔ 2 ^ 24 ≤ addr.toNat ∧ addr.toNat < 2 ^ 25 := by
  unfold isPmem BitVec.getLsbD
  rw [Nat.testBit_eq_decide_div_mod_eq, Nat.testBit_eq_decide_div_mod_eq]
  simp only [Bool.and_eq_true, Bool.not_eq_true', decide_eq_false_iff_not, decide_eq_true_eq]
  omega

/-- The circuit takes the memory from two bits of the address and cuts it to the width of
the memory's. -/
theorem targetOf_eq (addr : BitVec 26) : targetOf M addr =
    if isPmem addr then pmemTarget (addr.setWidth M.pmemAw)
    else dmemTarget (addr.setWidth M.dmemAw) := by
  simp only [targetOf, isPmem_iff, pmemTarget, dmemTarget, BitVec.toNat_setWidth]

section Lists
variable (s : MemSys M) (i : Inputs M)

/-- The reads not made yet, of the data memory (`false`) and of the packet memory. -/
def requests : Bool → List (Target)
  | false => s.dmaDmemRdFifo.contents.map dmemTarget
  | true => (if s.dmaPmemRdGntR then [pmemTarget (s.pmemPort s.dmaPmemRdBankR).addr] else []) ++
      s.dmaPmemRdFifo.contents.map pmemTarget

/-- The reads that enter the queues. -/
def entering : Bool → List (Target)
  | false =>
    if s.dmaDmemRdFifo.enque (s.dmemRdInputs i) then [dmemTarget (s.dmemRdInputs i).din] else []
  | true =>
    if s.dmaPmemRdFifo.enque (s.pmemRdInputs i) then [pmemTarget (s.pmemRdInputs i).din] else []

/-- The reads made at the ports, with what is in the lines now. -/
def reading : Bool → List (Target × Word M)
  | false => [false, true].filterMap fun bank =>
      if s.dmaDmemRdGnt bank then
        some (dmemTarget (s.dmaDmemPort bank).addr,
          s.lineAt (dmemTarget (s.dmaDmemPort bank).addr))
      else none
  | true =>
    if s.dmaPmemRdGntR then
      [(pmemTarget (s.pmemPort s.dmaPmemRdBankR).addr,
        s.lineAt (pmemTarget (s.pmemPort s.dmaPmemRdBankR).addr))]
    else []

/-- What the packet memory read in the last cycle. -/
def secondStage : List (Word M) :=
  if s.dmaPmemRdGntRr then
    [s.pmemRdDataB s.dmaPmemRdBankRr (s.pmemRdSelBR s.dmaPmemRdBankRr)]
  else []

/-- The register that is there with `ADD_PMEM_RD_REG` only. -/
def thirdStage : List (Word M) :=
  if M.addPmemRdReg && s.dmaPmemRdGntRrr then
    [s.pmemRdDataBR s.dmaPmemRdBankRrr (s.pmemRdSelBRr s.dmaPmemRdBankRrr)]
  else []

/-- The answers that are pushed to the queues. -/
def arriving : Bool → List (Word M)
  | false => if s.dmaDmemRdGntR then [s.dmaDmemRdData] else []
  | true => if s.dmaPmemRdGntFin then [s.dmaPmemRdData] else []

/-- The lines read that are not in a queue yet. -/
def words : Bool → List (Word M)
  | false => s.arriving false
  | true => s.arriving true ++ (s.thirdStage ++ s.secondStage)

/-- The queued answers. -/
def responses : Bool → List (Word M)
  | false => s.dmaDmemRdRespFifo.contents
  | true => s.dmaPmemRdRespFifo.contents

/-- The answers that leave the queues. -/
def leaving : Bool → List (Word M)
  | false =>
    if s.dmaDmemRdRespFifo.deque (s.dmemRespInputs i) then [s.dmaDmemRdRespFifo.dout] else []
  | true =>
    if s.dmaPmemRdRespFifo.deque (s.pmemRespInputs i) then [s.dmaPmemRdRespFifo.dout] else []

/-- The queue of a memory takes a read, and an answer. -/
def reqReady : Bool → Bool
  | false => s.dmaDmemRdFifo.dinReady
  | true => s.dmaPmemRdFifo.dinReady

def respReady : Bool → Bool
  | false => s.dmaDmemRdRespFifo.dinReady
  | true => s.dmaPmemRdRespFifo.dinReady

end Lists

/-- The entries of the queues of answers. -/
def respDepth : Bool → Nat
  | false => 8
  | true => 16

/-- What the packet memory and the data memory have, where only one of them has any. -/
def both {α : Type} (f : Bool → List α) : List α := f true ++ f false

theorem both_eq {α : Type} {f : Bool → List α} {pm : Bool} (h : f (!pm) = []) :
    both f = f pm := by
  cases pm with
  | false =>
    change f true = [] at h
    rw [both, h, List.nil_append]
  | true =>
    change f false = [] at h
    rw [both, h, List.append_nil]

/-! ## The reads at the ports -/

/-- The queues have been reset, and a granted read is in the port registers. -/
structure Reads (s : MemSys M) : Prop where
  dmemRd : s.dmaDmemRdFifo.Valid
  pmemRd : s.dmaPmemRdFifo.Valid
  dmemResp : s.dmaDmemRdRespFifo.Valid
  pmemResp : s.dmaPmemRdRespFifo.Valid
  port : s.dmaPmemRdGntR = true → (s.pmemPort s.dmaPmemRdBankR).en = true ∧
    (s.pmemPort s.dmaPmemRdBankR).wen = 0 ∧
    onBank M s.dmaPmemRdBankR (s.pmemPort s.dmaPmemRdBankR).addr = true

theorem Fresh.reads {s : MemSys M} (h : s.Fresh) : s.Reads where
  dmemRd := h.dmaDmemRdFifo.valid
  pmemRd := h.dmaPmemRdFifo.valid
  dmemResp := h.dmaDmemRdRespFifo.valid
  pmemResp := h.dmaPmemRdRespFifo.valid
  port := by simp [h.dmaPmemRdGnt.1]

section Ports
variable (s : MemSys M) (i : Inputs M)

theorem dmaDmemRdGnt_eq (bank : Bool) : s.dmaDmemRdGnt bank =
    (onBank M bank s.dmaDmemRdFifo.dout && (s.dmaDmemRdFifo.doutValid &&
      (!s.bcOwns bank && !s.dmemWrHead bank))) := by
  unfold dmaDmemRdGnt dmemRdHead
  cases s.bcOwns bank <;> cases s.dmemWrHead bank <;>
    cases onBank M bank s.dmaDmemRdFifo.dout <;> cases s.dmaDmemRdFifo.doutValid <;> rfl

theorem dmaPmemRdGnt_eq (bank : Bool) : s.dmaPmemRdGnt i bank =
    (onBank M bank s.dmaPmemRdFifo.dout && (s.dmaPmemRdFifo.doutValid &&
      (!coreOwns i bank && !s.pmemWrHead bank))) := by
  unfold dmaPmemRdGnt pmemRdHead coreOwns
  cases onBank M bank i.core.addr <;> cases i.corePmemEn <;> cases s.pmemWrHead bank <;>
    cases onBank M bank s.dmaPmemRdFifo.dout <;> cases s.dmaPmemRdFifo.doutValid <;> rfl

/-- A granted read is at the port of its bank. -/
theorem dmaDmemPort_of_gnt {bank : Bool} (h : s.dmaDmemRdGnt bank = true) :
    (s.dmaDmemPort bank).en = true ∧ (s.dmaDmemPort bank).addr = s.dmaDmemRdFifo.dout ∧
      s.dmaDmemRdFifo.dout.getLsbD M.lineBits = bank := by
  have hbank : s.dmaDmemRdFifo.dout.getLsbD M.lineBits = bank := by
    rw [dmaDmemRdGnt_eq] at h
    simpa [onBank] using (Bool.and_eq_true_iff.mp h).1
  unfold dmaDmemRdGnt at h
  unfold dmaDmemPort
  split at h
  · exact absurd h (by simp)
  · split at h
    · exact absurd h (by simp)
    · split at h
      · rename_i howns hwr hrd
        rw [if_neg howns, if_neg hwr, if_pos hrd]
        exact ⟨rfl, rfl, hbank⟩
      · exact absurd h (by simp)

theorem nextPmemPort_of_gnt (hrst : i.rst = false) {bank : Bool}
    (h : s.dmaPmemRdGnt i bank = true) :
    (s.nextPmemPort i bank).en = true ∧ (s.nextPmemPort i bank).wen = 0 ∧
      (s.nextPmemPort i bank).addr = s.dmaPmemRdFifo.dout ∧
      s.dmaPmemRdFifo.dout.getLsbD M.lineBits = bank := by
  rw [dmaPmemRdGnt_eq] at h
  obtain ⟨hon, hrest⟩ := Bool.and_eq_true_iff.mp h
  obtain ⟨hvalid, hfree⟩ := Bool.and_eq_true_iff.mp hrest
  obtain ⟨howns, hwr⟩ := Bool.and_eq_true_iff.mp hfree
  rw [Bool.not_eq_true'] at howns hwr
  unfold coreOwns at howns
  have hrd : s.pmemRdHead bank = true := by rw [pmemRdHead, hon, hvalid]; rfl
  refine ⟨?_, ?_, ?_, by simpa [onBank] using hon⟩ <;>
    simp [nextPmemPort, howns, hwr, hrd, hrst]

/-- The head of the queue of the packet memory's reads leaves it with a grant. -/
theorem dmaPmemRdFifo_deque : s.dmaPmemRdFifo.deque (s.pmemRdInputs i) =
    (s.dmaPmemRdGnt i false || s.dmaPmemRdGnt i true) := by
  change (_ && (s.dmaPmemRdGnt i false || s.dmaPmemRdGnt i true)) = _
  rw [dmaPmemRdGnt_eq, dmaPmemRdGnt_eq]
  cases s.dmaPmemRdFifo.doutValid <;> simp

theorem dmaDmemRdFifo_deque : s.dmaDmemRdFifo.deque (s.dmemRdInputs i) =
    (s.dmaDmemRdGnt false || s.dmaDmemRdGnt true) := by
  change (_ && (s.dmaDmemRdGnt false || s.dmaDmemRdGnt true)) = _
  rw [dmaDmemRdGnt_eq, dmaDmemRdGnt_eq]
  cases s.dmaDmemRdFifo.doutValid <;> simp

/-- Only the bank of the head is granted. -/
theorem gnt_other {bank : Bool} (h : s.dmaDmemRdGnt bank = true) :
    s.dmaDmemRdGnt (!bank) = false := by
  obtain ⟨-, -, hbank⟩ := s.dmaDmemPort_of_gnt h
  rw [dmaDmemRdGnt_eq]
  simp [onBank, hbank]

theorem reading_dmem : s.reading false =
    if s.dmaDmemRdFifo.deque (s.dmemRdInputs i) then
      [(dmemTarget s.dmaDmemRdFifo.dout, s.lineAt (dmemTarget s.dmaDmemRdFifo.dout))] else [] := by
  rw [dmaDmemRdFifo_deque]
  unfold reading
  cases hf : s.dmaDmemRdGnt false with
  | true =>
    have ht : s.dmaDmemRdGnt true = false := s.gnt_other hf
    obtain ⟨-, haddr, -⟩ := s.dmaDmemPort_of_gnt hf
    simp [hf, ht, haddr]
  | false =>
    cases ht : s.dmaDmemRdGnt true with
    | true =>
      obtain ⟨-, haddr, -⟩ := s.dmaDmemPort_of_gnt ht
      simp [hf, ht, haddr]
    | false => simp [hf, ht]

end Ports

/-! ## The conservation laws -/

section Laws
variable {s : MemSys M} {i : Inputs M}

theorem Reads.next (h : s.Reads) (hrst : i.rst = false) : (s.next i).Reads where
  dmemRd := h.dmemRd.next (by decide) (s.dmemRdInputs i)
  pmemRd := h.pmemRd.next (by decide) (s.pmemRdInputs i)
  dmemResp := h.dmemResp.next (by decide) (s.dmemRespInputs i)
  pmemResp := h.pmemResp.next (by decide) (s.pmemRespInputs i)
  port := by
    intro hgnt
    change (!i.rst && (s.dmaPmemRdGnt i false || s.dmaPmemRdGnt i true)) = true at hgnt
    rw [hrst, Bool.not_false, Bool.true_and] at hgnt
    have hbank : (s.next i).dmaPmemRdBankR = s.dmaPmemRdGnt i true := by simp [MemSys.next, hrst]
    have hport : ∀ bank, s.dmaPmemRdGnt i bank = true → (s.nextPmemPort i bank).en = true ∧
        (s.nextPmemPort i bank).wen = 0 ∧ onBank M bank (s.nextPmemPort i bank).addr = true := by
      intro bank hbank
      obtain ⟨hen, hwen, haddr, hon⟩ := s.nextPmemPort_of_gnt i hrst hbank
      refine ⟨hen, hwen, ?_⟩
      rw [haddr, ← hon]
      exact onBank_self _
    rw [hbank]
    cases ht : s.dmaPmemRdGnt i true with
    | true => exact hport true ht
    | false =>
      rw [ht, Bool.or_false] at hgnt
      exact hport false hgnt

/-- The read in the port registers of the packet memory is the head that left the queue. -/
theorem port_stage (hrst : i.rst = false) :
    (if (s.next i).dmaPmemRdGntR then
      [pmemTarget ((s.next i).pmemPort (s.next i).dmaPmemRdBankR).addr] else []) =
      if s.dmaPmemRdFifo.deque (s.pmemRdInputs i) then [pmemTarget s.dmaPmemRdFifo.dout]
      else [] := by
  have hgnt : (s.next i).dmaPmemRdGntR = (s.dmaPmemRdGnt i false || s.dmaPmemRdGnt i true) := by
    simp [MemSys.next, hrst]
  have hbank : (s.next i).dmaPmemRdBankR = s.dmaPmemRdGnt i true := by simp [MemSys.next, hrst]
  rw [hgnt, hbank, dmaPmemRdFifo_deque]
  change (if _ then [pmemTarget (s.nextPmemPort i (s.dmaPmemRdGnt i true)).addr] else []) = _
  cases ht : s.dmaPmemRdGnt i true with
  | true => rw [(s.nextPmemPort_of_gnt i hrst ht).2.2.1]
  | false =>
    cases hf : s.dmaPmemRdGnt i false with
    | true => rw [(s.nextPmemPort_of_gnt i hrst hf).2.2.1]
    | false => rfl

/-- **No read is lost, repeated or reordered before it is made.** -/
theorem requests_conservation (h : s.Reads) (hrst : i.rst = false) (pm : Bool) :
    s.requests pm ++ s.entering i pm = (s.reading pm).map Prod.fst ++ (s.next i).requests pm := by
  cases pm with
  | false =>
    have hfifo := congrArg (List.map (dmemTarget (M := M)))
      (s.dmaDmemRdFifo.conservation (i := s.dmemRdInputs i) h.dmemRd
        (by simp [dmemRdInputs, hrst]))
    simp only [List.map_append, apply_ite (List.map (dmemTarget (M := M))), List.map_cons,
      List.map_nil] at hfifo
    rw [s.reading_dmem i, apply_ite (List.map Prod.fst)]
    exact hfifo
  | true =>
    have hfifo := congrArg (List.map (pmemTarget (M := M)))
      (s.dmaPmemRdFifo.conservation (i := s.pmemRdInputs i) h.pmemRd
        (by simp [pmemRdInputs, hrst]))
    simp only [List.map_append, apply_ite (List.map (pmemTarget (M := M))), List.map_cons,
      List.map_nil, ← port_stage hrst] at hfifo
    have hread : (s.reading true).map Prod.fst = if s.dmaPmemRdGntR then
        [pmemTarget (s.pmemPort s.dmaPmemRdBankR).addr] else [] := by
      rw [reading, apply_ite (List.map Prod.fst)]
      rfl
    rw [hread, requests, List.append_assoc]
    exact congrArg _ hfifo

/-- The data memory has read the line in the next cycle. -/
theorem arriving_dmem (hrst : i.rst = false) :
    (s.next i).arriving false = (s.reading false).map Prod.snd := by
  have hgnt : (s.next i).dmaDmemRdGntR = (s.dmaDmemRdGnt false || s.dmaDmemRdGnt true) := by
    simp [MemSys.next, hrst]
  have hbank : (s.next i).dmaDmemRdBankR = s.dmaDmemRdGnt true := by simp [MemSys.next, hrst]
  have hdata : ∀ bank, s.dmaDmemRdGnt bank = true →
      s.nextDmemRdData bank = s.lineAt (dmemTarget s.dmaDmemRdFifo.dout) := by
    intro bank hgnt
    obtain ⟨hen, haddr, hbank⟩ := s.dmaDmemPort_of_gnt hgnt
    rw [nextDmemRdData, hen, hgnt, haddr, Bool.and_self, if_pos rfl, dmemTarget, lineAt,
      dmemAt_line, hbank]
  have hword : (s.next i).dmaDmemRdData = s.nextDmemRdData (s.dmaDmemRdGnt true) := by
    rw [dmaDmemRdData, hbank]
    rfl
  rw [s.reading_dmem i, dmaDmemRdFifo_deque]
  unfold arriving
  simp only [hgnt, hword]
  cases ht : s.dmaDmemRdGnt true with
  | true => simp [hdata true ht]
  | false =>
    cases hf : s.dmaDmemRdGnt false with
    | true => simp [hdata false hf]
    | false => rfl

/-- The packet memory has read the line in the next cycle. -/
theorem secondStage_next (h : s.Reads) (hrst : i.rst = false) :
    (s.next i).secondStage = (s.reading true).map Prod.snd := by
  have hgnt : (s.next i).dmaPmemRdGntRr = s.dmaPmemRdGntR := by simp [MemSys.next, hrst]
  have hbank : (s.next i).dmaPmemRdBankRr = s.dmaPmemRdBankR := by simp [MemSys.next, hrst]
  unfold secondStage reading
  rw [hgnt, hbank]
  split
  · rename_i hread
    obtain ⟨hen, hwen, hon⟩ := h.port hread
    have hline : (s.pmemPort s.dmaPmemRdBankR).addr.getLsbD M.lineBits = s.dmaPmemRdBankR := by
      simpa [onBank] using hon
    change [s.nextPmemRdData s.dmaPmemRdBankR (pmemSel (s.pmemPort s.dmaPmemRdBankR).addr)] = _
    rw [nextPmemRdData, if_pos ⟨hen, rfl, hwen⟩]
    simp [pmemTarget, lineAt, pmemAt_line, hline]
  · rfl

/-- The last registers of the packet memory. -/
theorem arriving_pmem (hrst : i.rst = false) :
    (s.next i).arriving true ++ (s.next i).thirdStage = s.thirdStage ++ s.secondStage := by
  have hrr : (s.next i).dmaPmemRdGntRrr = s.dmaPmemRdGntRr := by simp [MemSys.next, hrst]
  have hrrr : (s.next i).dmaPmemRdGntRrrr = s.dmaPmemRdGntRrr := by simp [MemSys.next, hrst]
  have hbank : (s.next i).dmaPmemRdBankRrr = s.dmaPmemRdBankRr := by simp [MemSys.next, hrst]
  have hdata : (s.next i).dmaPmemRdData = s.pmemRdDataFin s.dmaPmemRdBankFin := rfl
  have hreg : (s.next i).pmemRdDataBR = s.pmemRdDataB := rfl
  have hsel : (s.next i).pmemRdSelBRr = s.pmemRdSelBR := rfl
  unfold arriving thirdStage secondStage
  simp only [dmaPmemRdGntFin, hrr, hrrr, hbank, hdata, hreg, hsel, pmemRdDataFin,
    dmaPmemRdBankFin]
  cases M.addPmemRdReg <;> simp

/-- **Every line read comes out of the registers, in order.** -/
theorem words_conservation (h : s.Reads) (hrst : i.rst = false) (pm : Bool) :
    s.words pm ++ (s.reading pm).map Prod.snd = s.arriving pm ++ (s.next i).words pm := by
  cases pm with
  | false =>
    rw [← arriving_dmem (i := i) hrst]
    rfl
  | true =>
    rw [← secondStage_next (i := i) h hrst]
    change s.arriving true ++ (s.thirdStage ++ s.secondStage) ++ _ =
      s.arriving true ++ ((s.next i).arriving true ++ ((s.next i).thirdStage ++ _))
    rw [← List.append_assoc ((s.next i).arriving true), arriving_pmem hrst, List.append_assoc]

/-- **An answer is queued if its queue has room.** -/
theorem responses_conservation (h : s.Reads) (hrst : i.rst = false) (pm : Bool)
    (hroom : s.arriving pm ≠ [] → s.respReady pm = true) :
    s.responses pm ++ s.arriving pm = s.leaving i pm ++ (s.next i).responses pm := by
  cases pm with
  | false =>
    have hfifo := s.dmaDmemRdRespFifo.conservation (i := s.dmemRespInputs i) h.dmemResp
      (by simp [dmemRespInputs, hrst])
    have henque : (if s.dmaDmemRdRespFifo.enque (s.dmemRespInputs i) then
        [(s.dmemRespInputs i).din] else []) = s.arriving false := by
      unfold arriving at hroom ⊢
      change (if (s.dmaDmemRdGntR && s.dmaDmemRdRespFifo.dinReady) then _ else _) = _
      cases hgnt : s.dmaDmemRdGntR with
      | false => rfl
      | true =>
        have hready : s.dmaDmemRdRespFifo.dinReady = true := hroom (by simp [hgnt])
        rw [hready]
        rfl
    rw [henque] at hfifo
    exact hfifo
  | true =>
    have hfifo := s.dmaPmemRdRespFifo.conservation (i := s.pmemRespInputs i) h.pmemResp
      (by simp [pmemRespInputs, hrst])
    have henque : (if s.dmaPmemRdRespFifo.enque (s.pmemRespInputs i) then
        [(s.pmemRespInputs i).din] else []) = s.arriving true := by
      unfold arriving at hroom ⊢
      change (if (s.dmaPmemRdGntFin && s.dmaPmemRdRespFifo.dinReady) then _ else _) = _
      cases hgnt : s.dmaPmemRdGntFin with
      | false => rfl
      | true =>
        have hready : s.dmaPmemRdRespFifo.dinReady = true := hroom (by simp [hgnt])
        rw [hready]
        rfl
    rw [henque] at hfifo
    exact hfifo

/-- What the DMA is offered and takes leaves one of the two queues. -/
theorem leaving_eq : (if s.dmaRdRespValid && i.dmaRdRespReady then [s.dmaRdRespData] else []) =
    s.leaving i true ++ s.leaving i false := by
  change _ = (if s.dmaPmemRdRespFifo.doutValid && i.dmaRdRespReady then _ else _) ++
    (if s.dmaDmemRdRespFifo.doutValid &&
      (i.dmaRdRespReady && !s.dmaPmemRdRespFifo.doutValid) then _ else _)
  unfold dmaRdRespValid dmaRdRespData
  cases s.dmaPmemRdRespFifo.doutValid <;> cases s.dmaDmemRdRespFifo.doutValid <;>
    cases i.dmaRdRespReady <;> rfl

end Laws

/-! ## How much there can be -/

section Lengths
variable {s : MemSys M} {i : Inputs M}

/-- Every queue that is not full is ready: this holds one cycle after a reset. -/
structure Open (s : MemSys M) : Prop where
  req : ∀ pm, (s.requests pm).length < 4 → s.reqReady pm = true
  resp : ∀ pm, (s.responses pm).length < respDepth pm → s.respReady pm = true

theorem Reads.open_next (h : s.Reads) (hrst : i.rst = false) : (s.next i).Open where
  req := by
    rintro (_ | _) hlt
    · refine BasicFifo.dinReady_next_of_lt h.dmemRd (i := s.dmemRdInputs i)
        (by simp [dmemRdInputs, hrst]) ?_
      rw [requests, List.length_map] at hlt
      exact hlt
    · refine BasicFifo.dinReady_next_of_lt h.pmemRd (i := s.pmemRdInputs i)
        (by simp [pmemRdInputs, hrst]) ?_
      rw [requests, List.length_append, List.length_map] at hlt
      exact Nat.lt_of_le_of_lt (Nat.le_add_left _ _) hlt
  resp := by
    rintro (_ | _) hlt
    · exact BasicFifo.dinReady_next_of_lt h.dmemResp (i := s.dmemRespInputs i)
        (by simp [dmemRespInputs, hrst]) hlt
    · exact BasicFifo.dinReady_next_of_lt h.pmemResp (i := s.pmemRespInputs i)
        (by simp [pmemRespInputs, hrst]) hlt

/-- With no answer offered, both queues of answers are empty. -/
theorem Reads.responses_eq_nil (h : s.Reads) (hv : s.dmaRdRespValid = false) (pm : Bool) :
    s.responses pm = [] := by
  obtain ⟨hp, hd⟩ := Bool.or_eq_false_iff.mp hv
  rw [h.pmemResp.doutValid_eq] at hp
  rw [h.dmemResp.doutValid_eq] at hd
  cases pm with
  | false =>
    change s.dmaDmemRdRespFifo.contents = []
    simpa using hd
  | true =>
    change s.dmaPmemRdRespFifo.contents = []
    simpa using hp

theorem Reads.length_requests_dmem (h : s.Reads) : (s.requests false).length ≤ 4 := by
  have := h.dmemRd.length_le
  simpa [requests] using this

theorem Reads.length_requests_pmem (h : s.Reads) : (s.requests true).length ≤ 5 := by
  have hle := h.pmemRd.length_le
  unfold requests
  rw [List.length_append, List.length_map]
  split
  · rw [List.length_singleton]
    omega
  · rw [List.length_nil]
    omega

theorem length_arriving (pm : Bool) : (s.arriving pm).length ≤ 1 := by
  cases pm <;> (unfold arriving; dsimp only; split <;> simp)

theorem length_words_dmem : (s.words false).length ≤ 1 := length_arriving false

theorem length_words_pmem : (s.words true).length ≤ 3 := by
  have harriving := length_arriving (s := s) true
  have hthird : s.thirdStage.length ≤ 1 := by
    unfold thirdStage
    split <;> simp
  have hsecond : s.secondStage.length ≤ 1 := by
    unfold secondStage
    split <;> simp
  change (s.arriving true ++ (s.thirdStage ++ s.secondStage)).length ≤ 3
  rw [List.length_append, List.length_append]
  omega

theorem length_arriving_le (pm : Bool) : (s.arriving pm).length ≤ (s.words pm).length := by
  cases pm with
  | false => exact Nat.le_refl _
  | true =>
    change _ ≤ (s.arriving true ++ _).length
    rw [List.length_append]
    exact Nat.le_add_right _ _

end Lengths
end Rosebud.MemSys
