import Rosebud.DmaStages

/-! # The write half of `axis_dma` stores the packets

The writes the memory takes are those the stages of `DmaStages` owe, one at a time;
the writes of one packet are `storesFrom`, whose bytes the library knows.
-/
namespace Rosebud.DmaWrite
open Clocked Lanes AxiStream ByteStore

variable {P : Config}

section Stored
variable {b : Bench P} {c : Cycle P}

/-- The writes that are due. -/
def storeDues (P : Config) : Dues P (Store P.addrWidth) where
  packet := stores
  stage := Stage.owed
  idle := rfl
  begins := fun _ => rfl
  gap := fun _ => rfl

theorem makes_store {r : Regs P} {st : Stage P} (h : Matches r st) :
    (storeDues P).Makes [store r] st := by
  cases st with
  | idle => trivial
  | gap x => trivial
  | extra x => exact congrArg (fun y => [y]) (extra_store h).symm
  | hold x =>
    refine ⟨?_, ?_, ?_⟩
    · intro w ws hx
      exact hold_store_cons h hx
    · intro hx hover
      exact hold_store_over h hx hover
    · intro hx hfits
      exact hold_store_fits h hx hfits

/-- A cycle makes the first of the writes that are due, or none. -/
theorem owed_step {a : Progress P} (h : Follows b a) (c : Cycle P) :
    a.owed = (if writes b.regs (b.inputs c) then [store b.regs] else []) ++
      (a.next c.memWrReady (b.accepts c)).owed :=
  (storeDues P).total_step h (makes_store h.regs) c

/-- What the writes of the packets from `a` on have to do with the list of all. -/
def Owes (ps : List (Pkt P)) (b : Bench P) (owed : List (Store P.addrWidth)) : Prop :=
  ∃ a, Follows b a ∧ a.todo <:+ ps ∧ owed = a.owed

theorem owes_step {ps : List (Pkt P)} {owed : List (Store P.addrWidth)} (h : Owes ps b owed) :
    ∃ made owed', (b.step c).stores = b.stores ++ made ∧ owed = made ++ owed' ∧
      Owes ps (b.step c) owed' := by
  obtain ⟨a, hf, hsuff, rfl⟩ := h
  exact ⟨_, _, rfl, owed_step hf c, a.next c.memWrReady (b.accepts c), follows_step hf c,
    (a.todo_next _ _).trans hsuff, rfl⟩

/-- The writes due are those of the words to come, and at most two more. -/
theorem length_owed_le {a : Progress P} (h : Follows b a) :
    a.owed.length ≤ 2 * b.pending.length + 2 := by
  have htodo : ∀ todo : List (Pkt P),
      (todo.flatMap stores).length ≤ 2 * (todo.flatMap Packet.beats).length := by
    intro todo
    induction todo with
    | nil => exact Nat.le_refl _
    | cons p ps ih =>
      have hp : (stores p).length ≤ p.body.length + 2 := length_storesFrom_le _ _ _
      rw [List.flatMap_cons, List.flatMap_cons, List.length_append, List.length_append,
        p.length_beats]
      omega
  have hstage : a.stage.owed.length ≤ 2 * a.stage.beats.length + 2 := by
    obtain ⟨st, todo⟩ := a
    cases st with
    | idle => exact Nat.zero_le _
    | extra x => simp [Stage.owed]
    | hold x =>
      have hx : x.owed.length ≤ x.left.length + 2 := length_storesFrom_le _ _ _
      have hbeats : x.words.beats.length = x.left.length + 1 := x.words.length_beats
      simp only [Stage.owed, Stage.beats, List.length_tail]
      omega
    | gap x =>
      have hx : x.owed.length ≤ x.left.length + 2 := length_storesFrom_le _ _ _
      have hbeats : x.words.beats.length = x.left.length + 1 := x.words.length_beats
      simp only [Stage.owed, Stage.beats]
      omega
  have hall := htodo a.todo
  rw [h.pending, Progress.owed, Progress.pending, List.length_append, List.length_append]
  omega

/-- **The writes store exactly the packets.**  Whatever the packets and their base
addresses, the offers and the two receivers, at every point of the run the writes the
memory has taken are the first ones of the packets' writes, all but at most two of those
that the words taken call for; between packets they are the writes of the packets
taken; and the writes of a packet place its bytes from its base address on, in order
and nothing else, with `mem_wr_last` on the last of them only. -/
theorem stores_exactly {ps : List (Pkt P)} {b₀ : Bench P} (hstart : b₀.Start ps)
    (cycles : List (Cycle P)) :
    let b := run Bench.step b₀ cycles
    b.stores <+: ps.flatMap stores ∧
      (ps.flatMap stores).length ≤ b.stores.length + 2 * b.pending.length + 2 ∧
      (b.regs.wrStateR = .idle → ∃ done todo, ps = done ++ todo ∧
        b.pending = todo.flatMap Packet.beats ∧ b.stores = done.flatMap stores) ∧
      ∀ p : Pkt P, (stores p).flatMap Store.bytes = place p.side.wrBaseAddr p.bytes ∧
        ∃ n, (stores p).map Store.last = List.replicate n false ++ [true] := by
  intro b
  have hm : Meets Bench.step (fun _ _ => True) b₀ cycles := meets_true _ _ _
  have hdel : ∃ owed, Owes ps b owed ∧ b.stores ++ owed = b₀.stores ++ ps.flatMap stores :=
    run_delivers (fun _ _ _ h _ => owes_step h)
      ⟨_, hstart.follows, List.suffix_refl ps, rfl⟩ hm
  obtain ⟨owed, ⟨a, hf, ⟨done, hdone⟩, rfl⟩, heq⟩ := hdel
  rw [hstart.stores, List.nil_append] at heq
  refine ⟨⟨_, heq⟩, ?_, ?_, ?_⟩
  · have hlen := length_owed_le hf
    rw [← heq, List.length_append]
    omega
  · intro hs
    have hidle := idle_follows hf hs
    have hpend := hf.pending
    rw [Progress.pending, hidle] at hpend
    refine ⟨done, a.todo, hdone.symm, hpend, ?_⟩
    rw [← hdone, List.flatMap_append, Progress.owed, hidle] at heq
    exact List.append_cancel_right heq
  · intro p
    exact ⟨flatMap_storesFrom (room_le p) p.body _ [], map_last_storesFrom p.body _ []⟩

theorem stores_exactly_samplePacket :
    (run Bench.step (sampleBench [samplePacket])
      [offering true, offering true, offering true]).stores =
        [⟨[(3, 1)], false⟩, ⟨[(4, 2), (5, 3)], true⟩] ∧
    (run Bench.step (sampleBench [samplePacket])
      [offering true, offering true, offering true]).stores <+: stores samplePacket :=
  ⟨by decide +kernel,
    (stores_exactly (sampleBench_start [samplePacket])
      [offering true, offering true, offering true]).1⟩

end Stored

end Rosebud.DmaWrite
