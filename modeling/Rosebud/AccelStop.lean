import Rosebud.AccelTransfers

/-! # Stopping `single_accel_rd_dma`

A stop empties the output queue, forgets the counter and gives up the descriptor in hand.
Two things go wrong with it.  The register that remembers a stop is cleared by the next
descriptor that is offered, and in the same cycle it decides whether that descriptor is
kept: one that comes to an idle engine is taken and dropped (`descriptor_lost`).  And if the
engine is busy in that cycle, the words that are still in the memory arrive after the queue
was emptied, and are put out without being counted.

Neither happens to a descriptor that is offered, after a stop, while the descriptor in hand
waits for the receiver and no word is in the memory (`StopSafe`): then what was taken before
the stop is cut off, and what is taken after it is put out in full.
-/
namespace Rosebud.AccelRdDma
open Clocked

variable {P : Config} {mem : Banks P}

/-! ## A descriptor that is lost -/

/-- A stop of an idle engine. -/
def stopPulse : Cycle sampleConfig := ⟨false, ⟨0, 0⟩, true, true⟩

/-- The descriptor offered after a stop of an idle engine is taken, and no word of it is put
out. -/
theorem descriptor_lost :
    let e := run (Bench.step sampleBanks) (sampleBench [sampleDesc]) [stopPulse]
    let more := List.replicate 30 (offering false true)
    let f := run (Bench.step sampleBanks) e more
    e.accepted = [] ∧ f.accepted.map (fun d => (d.addr, d.len)) = [(5, 5)] ∧
      e.left sampleBanks ≤ tally (Bench.step sampleBanks) Feeds e more ∧
      f.out = [] ∧ (words sampleBanks sampleDesc).length = 3 := by
  decide +kernel

/-! ## Transfers that are cut off -/

/-- The words are beginnings of the transfers of the descriptors, one after the other. -/
def Cut (mem : Banks P) (ds : List (Desc P)) (ws : List (Word P)) : Prop :=
  ∃ parts, List.Forall₂ (fun d part => part <+: words mem d) ds parts ∧ ws = parts.flatten

theorem cut_nil (mem : Banks P) : Cut mem [] [] := ⟨[], .nil, rfl⟩

theorem cut_words (mem : Banks P) (ds : List (Desc P)) : Cut mem ds (ds.flatMap (words mem)) := by
  refine ⟨ds.map (words mem), ?_, List.flatMap_def ..⟩
  rw [List.forall₂_map_right_iff, List.forall₂_same]
  exact fun d _ => List.prefix_refl _

theorem Cut.append {ds es : List (Desc P)} {ws vs : List (Word P)} (h : Cut mem ds ws)
    (h' : Cut mem es vs) : Cut mem (ds ++ es) (ws ++ vs) := by
  obtain ⟨parts, hparts, rfl⟩ := h
  obtain ⟨parts', hparts', rfl⟩ := h'
  exact ⟨parts ++ parts', List.rel_append hparts hparts', List.flatten_append.symm⟩

theorem cut_empty (mem : Banks P) (ds : List (Desc P)) : Cut mem ds [] := by
  refine ⟨ds.map fun _ => [], ?_, ?_⟩
  · rw [List.forall₂_map_right_iff, List.forall₂_same]
    exact fun d _ => List.nil_prefix
  · induction ds with
    | nil => rfl
    | cons d ds ih => rw [List.map_cons, List.flatten_cons, ← ih, List.append_nil]

/-- What is cut off earlier is cut off. -/
theorem Cut.shorten {ds : List (Desc P)} {ws vs : List (Word P)} (h : Cut mem ds ws)
    (hpre : vs <+: ws) : Cut mem ds vs := by
  obtain ⟨parts, hparts, rfl⟩ := h
  induction hparts generalizing vs with
  | nil =>
    rw [List.prefix_nil.mp hpre]
    exact cut_nil mem
  | @cons d part ds parts hd _ ih =>
    obtain ⟨tail, htail⟩ := hpre
    rw [List.flatten_cons, List.append_eq_append_iff] at htail
    rcases htail with ⟨cutOff, hpart, -⟩ | ⟨v, rfl, hv⟩
    · have hvs : vs <+: part := ⟨cutOff, hpart.symm⟩
      have hd' : vs <+: words mem d := hvs.trans hd
      have hone : Cut mem [d] vs := ⟨[vs], .cons hd' .nil, (List.append_nil vs).symm⟩
      have happ := hone.append (cut_empty mem ds)
      rwa [List.append_nil] at happ
    · have hone : Cut mem [d] part := ⟨[part], .cons hd .nil, (List.append_nil part).symm⟩
      exact hone.append (ih ⟨tail, hv.symm⟩)

/-! ## One cycle -/

/-- A descriptor that is offered while a stop is remembered finds the descriptor in hand
waiting for the receiver, and no word in the memory. -/
def StopSafe (b : Bench P) (c : Cycle P) : Prop :=
  b.regs.accelStopR = true → (b.inputs c).descValid = true →
    b.regs.actMemV = true ∧ accelFifoReady b.regs = false ∧ b.regs.memRd.valid = false ∧
      b.regs.memRdR.valid = false ∧ b.regs.memRdRr.valid = false
deriving Decidable

/-- The state a stop leaves until a descriptor is offered: words that are still in the memory
come to nothing. -/
structure Flushed (r : Regs P) : Prop where
  accelStopR : r.accelStopR = true
  actMemV : r.actMemV = false
  valid : r.accelFifo.Valid
  contents : r.accelFifo.contents = []

/-- The words that are to be put out. -/
def Lives (mem : Banks P) (b : Bench P) (ws : List (Word P)) : Prop :=
  (Counted mem b.regs ∧ ws = b.live mem) ∨ (Flushed b.regs ∧ ws = [])

section Step
variable {b : Bench P} {c : Cycle P} {ws : List (Word P)}

theorem popped_front (h : b.regs.accelFifo.Valid) (c : Cycle P) :
    popped b.regs (b.inputs c) <+: b.regs.accelFifo.contents := by
  unfold popped
  cases ho : outputs b.regs (b.inputs c) with
  | false => exact List.nil_prefix
  | true =>
    obtain ⟨xs, hc⟩ := h.contents_eq_cons (Bool.and_eq_true_iff.mp ho).1
    rw [if_pos rfl, hc]
    exact ⟨xs, rfl⟩

/-- A stop empties the queue. -/
theorem fifo_cleared (hstop : b.regs.accelStopR = true) : (b.step mem c).regs.accelFifo.Fresh :=
  BasicFifo.fresh_next_of_reset _ (by simp [fifoInputs, hstop])

theorem actMemV_cleared (hstop : b.regs.accelStopR = true) :
    (b.step mem c).regs.actMemV = false := by
  change (if AccelRdDma.accepts b.regs (b.inputs c) then !b.regs.accelStopR
    else if actRdLast b.regs && accelFifoReady b.regs then false
    else b.regs.actMemV && !b.regs.accelStopR) = false
  rw [hstop]
  split
  · rfl
  · split
    · rfl
    · exact Bool.and_false _

theorem taken_of_not_valid (h : (b.inputs c).descValid = false) : b.taken c = [] := by
  simp [Bench.taken, Bench.accepts, accepts, h]

/-- A cycle of a stop without a descriptor. -/
theorem flushed_step (hstop : b.regs.accelStopR = true) (hv : (b.inputs c).descValid = false) :
    Flushed (b.step mem c).regs where
  accelStopR := by
    change (if (b.inputs c).descValid then false else b.regs.accelStopR || c.accelStop) = true
    rw [hv, hstop]
    rfl
  actMemV := actMemV_cleared hstop
  valid := (fifo_cleared hstop).valid
  contents := (fifo_cleared hstop).contents_eq

/-- The descriptor that ends a stop, offered while nothing moves. -/
theorem resumed_step (hstop : b.regs.accelStopR = true)
    (hv : (b.inputs c).descValid = true) (hsafe : StopSafe b c) :
    Counted mem (b.step mem c).regs ∧ (b.step mem c).live mem = [] ∧ b.taken c = [] ∧
      (b.step mem c).regs.accelStopR = false := by
  obtain ⟨hact, hready, h0, h1, h2⟩ := hsafe hstop hv
  have hissue : issues b.regs = false := by simp [issues, hready]
  have hfresh : (b.step mem c).regs.accelFifo.Fresh := fifo_cleared hstop
  have hactMemV : (b.step mem c).regs.actMemV = false := actMemV_cleared hstop
  have hcounter : (b.step mem c).regs.counter = 0 := by simp [Bench.step, next, hstop]
  have hunderway : underway mem (b.step mem c).regs = [] :=
    underway_of_empty hfresh.contents_eq hissue h0 h1 h2
  refine ⟨⟨enabled_next, hfresh.valid, ?_, ?_, ?_, ?_⟩, ?_, ?_, ?_⟩
  · rw [hunderway, hcounter]
    rfl
  · rw [hcounter]
    exact Nat.zero_le _
  · intro hrrr
    exact absurd (h2.symm.trans hrrr) Bool.false_ne_true
  · intro hon
    exact absurd (hactMemV.symm.trans hon) Bool.false_ne_true
  · rw [Bench.live, hunderway, inHand, hactMemV]
    rfl
  · simp [Bench.taken, Bench.accepts, accepts, descReady, hact, hready]
  · simp [Bench.step, next, hv]

/-- **What one cycle does**: without a stop no word is lost; with one, what was to be put out
is cut off. -/
theorem lives_step (h : Lives mem b ws) (hsafe : StopSafe b c) :
    ∃ ws', Lives mem (b.step mem c) ws' ∧
      ((b.regs.accelStopR = false ∧
          ws ++ (b.taken c).flatMap (words mem) = popped b.regs (b.inputs c) ++ ws') ∨
        (b.regs.accelStopR = true ∧ b.taken c = [] ∧ ws' = [] ∧
          popped b.regs (b.inputs c) <+: ws)) := by
  rcases h with ⟨hcounted, rfl⟩ | ⟨hflushed, rfl⟩
  · cases hstop : b.regs.accelStopR with
    | false =>
      obtain ⟨hcounted', hflow⟩ := counted_step hcounted hstop c
      exact ⟨_, .inl ⟨hcounted', rfl⟩, .inl ⟨rfl, hflow⟩⟩
    | true =>
      have hpop : popped b.regs (b.inputs c) <+: b.live mem := by
        rw [Bench.live, underway, List.append_assoc]
        exact (popped_front hcounted.valid c).trans (List.prefix_append _ _)
      cases hv : (b.inputs c).descValid with
      | false =>
        exact ⟨[], .inr ⟨flushed_step hstop hv, rfl⟩, .inr ⟨rfl, taken_of_not_valid hv, rfl, hpop⟩⟩
      | true =>
        obtain ⟨hcounted', hlive, htaken, -⟩ := resumed_step hstop hv hsafe
        exact ⟨[], .inl ⟨hcounted', hlive.symm⟩, .inr ⟨rfl, htaken, rfl, hpop⟩⟩
  · have hstop := hflushed.accelStopR
    have hv : (b.inputs c).descValid = false := by
      cases hv : (b.inputs c).descValid with
      | false => rfl
      | true => exact absurd ((hsafe hstop hv).1.symm.trans hflushed.actMemV) Bool.true_eq_false.mp
    have hpop := popped_front hflushed.valid c
    rw [hflushed.contents] at hpop
    exact ⟨[], .inr ⟨flushed_step hstop hv, rfl⟩,
      .inr ⟨hstop, taken_of_not_valid hv, rfl, hpop⟩⟩

theorem inHand_pos (h : Counted mem b.regs) (hact : b.regs.actMemV = true) :
    0 < (inHand mem b.regs).length := by
  rw [inHand_cons (h.count_pos hact) hact]
  exact Nat.succ_pos _

/-- What is left to do in a cycle of a stop. -/
theorem left_stop (hstop : b.regs.accelStopR = true) (htaken : b.taken c = []) :
    (b.step mem c).left mem + b.regs.memRd.valid.toNat + b.regs.memRdR.valid.toNat +
        b.regs.memRdRr.valid.toNat + 2 * b.regs.memRdValidRrr.toNat +
        b.regs.accelFifo.contents.length + 6 * (inHand mem b.regs).length =
      b.left mem + 5 * (issues b.regs).toNat := by
  obtain ⟨-, hpend⟩ := @taken_spec P mem b c
  rw [htaken, List.nil_append] at hpend
  have hcontents : (b.step mem c).regs.accelFifo.contents = [] :=
    (fifo_cleared hstop).contents_eq
  have hhand : inHand mem (b.step mem c).regs = [] := by
    rw [inHand, actMemV_cleared hstop]
    rfl
  unfold Bench.left transit
  rw [hcontents, hhand, ← hpend]
  change 5 * (issues b.regs).toNat + 4 * b.regs.memRd.valid.toNat +
    3 * b.regs.memRdR.valid.toNat + 2 * b.regs.memRdRr.valid.toNat + 0 + 6 * 0 + _ + _ + _ + _ +
    _ + _ + _ = _
  omega

/-- A stop takes nothing longer. -/
theorem left_step_of_stopSafe (h : Lives mem b ws) (hsafe : StopSafe b c) :
    (b.step mem c).left mem ≤ b.left mem - if Feeds b c then 1 else 0 := by
  obtain ⟨-, -, ⟨hstop, -⟩ | ⟨hstop, htaken, -⟩⟩ := lives_step h hsafe
  · rcases h with ⟨hcounted, -⟩ | ⟨hflushed, -⟩
    · exact left_step hcounted hstop c
    · exact absurd (hstop.symm.trans hflushed.accelStopR) Bool.false_ne_true
  · have hleft := @left_stop P mem b c hstop htaken
    -- the descriptor in hand is worth more than the line it may still ask for
    have hhand : b.regs.actMemV = true → 0 < (inHand mem b.regs).length := by
      intro hact
      rcases h with ⟨hcounted, -⟩ | ⟨hflushed, -⟩
      · exact inHand_pos hcounted hact
      · exact absurd (hact.symm.trans hflushed.actMemV) Bool.true_eq_false.mp
    have hissue : (issues b.regs).toNat ≤ (inHand mem b.regs).length := by
      cases hi : issues b.regs with
      | false => exact Nat.zero_le _
      | true => exact hhand (Bool.and_eq_true_iff.mp hi).1
    by_cases hfeeds : Feeds b c
    · rw [if_pos hfeeds]
      by_contra hgt
      have hnil : (inHand mem b.regs).length = 0 := by omega
      have hpend : b.pending = [] := by
        cases hp : b.pending with
        | nil => rfl
        | cons d ds =>
          have hv : (b.inputs c).descValid = true := by simp [Bench.inputs, hp, hfeeds.1]
          have hpos := hhand (hsafe hstop hv).1
          omega
      obtain ⟨h0, h1, h2, h3⟩ := stages_idle (r := b.regs) (by omega)
      have hcontents : b.regs.accelFifo.contents.length = 0 := by omega
      have hzero : b.left mem = 0 := by
        simp [Bench.left, transit, h0, h1, h2, h3, hcontents, hnil, hpend]
      omega
    · rw [if_neg hfeeds]
      omega

end Step

/-! ## Before and after a point of the run -/

/-- What was put out and is to be put out of the descriptors `before` a point of the run, at
which `sent` was put out, and of the ones taken since. -/
structure Parted (mem : Banks P) (before : List (Desc P)) (sent : List (Word P)) (b : Bench P)
    (since : List (Desc P)) (old oldDue new newDue : List (Word P)) : Prop where
  lives : Lives mem b (oldDue ++ newDue)
  accepted : b.accepted = before ++ since
  out : b.out = old ++ new
  sent : sent <+: old
  cutBefore : Cut mem before (old ++ oldDue)
  cutSince : Cut mem since (new ++ newDue)
  /-- The words of the descriptors taken since come after the others. -/
  order : oldDue ≠ [] → new = []

/-- Nothing of the descriptors taken since is cut off. -/
def Whole (mem : Banks P) (b : Bench P) (since : List (Desc P)) (new newDue : List (Word P)) :
    Prop :=
  new ++ newDue = since.flatMap (words mem) ∧ (b.regs.accelStopR = true → since = [])

section Parted
variable {b : Bench P} {c : Cycle P} {before since : List (Desc P)}
  {sent old oldDue new newDue : List (Word P)}

/-- A word is put out of the older descriptors as long as one is due. -/
theorem split_popped {ds ps ws : List (Word P)} (hflow : oldDue ++ newDue ++ ds = ps ++ ws)
    (hlen : ps.length ≤ 1) :
    ∃ p q oldDue' newDue', ps = p ++ q ∧ oldDue = p ++ oldDue' ∧ newDue ++ ds = q ++ newDue' ∧
      ws = oldDue' ++ newDue' ∧ (oldDue ≠ [] → q = []) := by
  match ps, hlen with
  | [], _ =>
    exact ⟨[], [], oldDue, newDue ++ ds, rfl, rfl, rfl, by simpa using hflow.symm, fun _ => rfl⟩
  | [x], _ =>
    cases oldDue with
    | nil => exact ⟨[], [x], [], ws, rfl, rfl, hflow, rfl, fun hne => absurd rfl hne⟩
    | cons y oldDue =>
      obtain ⟨rfl, hrest⟩ := List.cons.inj hflow
      refine ⟨[y], [], oldDue, newDue ++ ds, rfl, rfl, rfl, ?_, fun _ => rfl⟩
      rw [← List.append_assoc]
      exact hrest.symm

theorem length_popped (r : Regs P) (i : Inputs P) : (popped r i).length ≤ 1 := by
  unfold popped
  split
  · exact Nat.le_refl 1
  · exact Nat.zero_le 1

theorem parted_step (h : Parted mem before sent b since old oldDue new newDue)
    (hsafe : StopSafe b c) :
    ∃ since' old' oldDue' new' newDue',
      Parted mem before sent (b.step mem c) since' old' oldDue' new' newDue' ∧
      (c.accelStop = false → Whole mem b since new newDue →
        Whole mem (b.step mem c) since' new' newDue') := by
  have hlen := length_popped b.regs (b.inputs c)
  have hout : (b.step mem c).out = old ++ new ++ popped b.regs (b.inputs c) := by
    rw [← h.out]
    rfl
  obtain ⟨ws', hlives, ⟨hstop, hflow⟩ | ⟨hstop, htaken, rfl, hpre⟩⟩ := lives_step h.lives hsafe
  · -- no stop: the words of a descriptor that is taken come last
    obtain ⟨p, q, oldDue', newDue', hpop, hold, hnew, rfl, hlast⟩ := split_popped hflow hlen
    have horder : p ≠ [] → new = [] := fun hp => h.order (by simp [hold, hp])
    refine ⟨since ++ b.taken c, old ++ p, oldDue', new ++ q, newDue', ⟨hlives, ?_, ?_, ?_, ?_, ?_,
      ?_⟩, ?_⟩
    · change b.accepted ++ b.taken c = _
      rw [h.accepted, List.append_assoc]
    · rw [hout, hpop]
      cases p with
      | nil => simp
      | cons x p => simp [horder (List.cons_ne_nil x p)]
    · exact h.sent.trans (List.prefix_append _ _)
    · rw [List.append_assoc, ← hold]
      exact h.cutBefore
    · rw [List.append_assoc, ← hnew, ← List.append_assoc]
      exact h.cutSince.append (cut_words mem _)
    · intro hne
      have hdue : oldDue ≠ [] := by simp [hold, hne]
      rw [h.order hdue, hlast hdue]
      rfl
    · rintro hquiet ⟨hwhole, -⟩
      refine ⟨?_, ?_⟩
      · rw [List.append_assoc, ← hnew, ← List.append_assoc, hwhole, List.flatMap_append]
      · intro hon
        have hoff : (b.step mem c).regs.accelStopR = false := by
          change (if (b.inputs c).descValid then false
            else b.regs.accelStopR || c.accelStop) = false
          rw [hstop, hquiet]
          exact ite_self _
        exact absurd (hoff.symm.trans hon) Bool.false_ne_true
  · -- a stop: what is due is given up
    obtain ⟨lost, hlost⟩ := hpre
    obtain ⟨p, q, oldDue', newDue', hpop, hold, hnew, -, -⟩ :=
      @split_popped P oldDue newDue [] _ lost (by rw [List.append_nil, hlost]) hlen
    rw [List.append_nil] at hnew
    have horder : p ≠ [] → new = [] := fun hp => h.order (by simp [hold, hp])
    refine ⟨since, old ++ p, [], new ++ q, [], ⟨hlives, ?_, ?_, ?_, ?_, ?_, ?_⟩, ?_⟩
    · change b.accepted ++ b.taken c = _
      rw [htaken, List.append_nil, h.accepted]
    · rw [hout, hpop]
      cases p with
      | nil => simp
      | cons x p => simp [horder (List.cons_ne_nil x p)]
    · exact h.sent.trans (List.prefix_append _ _)
    · refine h.cutBefore.shorten ⟨oldDue', ?_⟩
      rw [hold, List.append_nil, List.append_assoc]
    · refine h.cutSince.shorten ⟨newDue', ?_⟩
      rw [hnew, List.append_nil, List.append_assoc]
    · exact fun hne => absurd rfl hne
    · rintro - ⟨hwhole, hnone⟩
      have hsince := hnone hstop
      rw [hsince, List.flatMap_nil, hnew] at hwhole
      obtain ⟨hnil, hrest⟩ := List.append_eq_nil_iff.mp hwhole
      obtain ⟨hq, -⟩ := List.append_eq_nil_iff.mp hrest
      exact ⟨by rw [hnil, hq, hsince]; rfl, fun _ => hsince⟩

end Parted

/-! ## Runs -/

section Runs
variable {b : Bench P} {ds : List (Desc P)}

theorem Bench.Start.parted (h : b.Start ds) : Parted mem [] [] b [] [] [] [] [] where
  lives := .inl ⟨h.counted, by rw [Bench.live, h.underway, inHand, h.actMemV]; rfl⟩
  accepted := h.accepted
  out := h.out
  sent := List.prefix_refl _
  cutBefore := cut_nil mem
  cutSince := cut_nil mem
  order := fun hne => absurd rfl hne

/-- Some parting of the words. -/
def IsParted (mem : Banks P) (before : List (Desc P)) (sent : List (Word P)) (b : Bench P) : Prop :=
  ∃ since old oldDue new newDue, Parted mem before sent b since old oldDue new newDue

/-- One in which nothing of the later ones is cut off. -/
def IsWhole (mem : Banks P) (before : List (Desc P)) (sent : List (Word P)) (b : Bench P) : Prop :=
  ∃ since old oldDue new newDue, Parted mem before sent b since old oldDue new newDue ∧
    Whole mem b since new newDue

/-- A reached state, as the point that parts the words. -/
theorem Parted.here {before since : List (Desc P)} {sent old oldDue new newDue : List (Word P)}
    (h : Parted mem before sent b since old oldDue new newDue) :
    IsWhole mem b.accepted b.out b := by
  refine ⟨[], b.out, oldDue ++ newDue, [], [], ⟨?_, ?_, ?_, ?_, ?_, ?_, ?_⟩, ?_⟩
  · rw [List.append_nil]
    exact h.lives
  · exact (List.append_nil _).symm
  · exact (List.append_nil _).symm
  · exact List.prefix_refl _
  · have hcut := h.cutBefore.append h.cutSince
    rw [h.out, h.accepted]
    cases oldDue with
    | nil => simpa using hcut
    | cons x oldDue => simpa [h.order (List.cons_ne_nil x oldDue)] using hcut
  · exact cut_nil mem
  · exact fun _ => rfl
  · exact ⟨rfl, fun _ => rfl⟩

theorem IsParted.step {before : List (Desc P)} {sent : List (Word P)} {c : Cycle P}
    (h : IsParted mem before sent b) (hsafe : StopSafe b c) :
    IsParted mem before sent (b.step mem c) := by
  obtain ⟨since, old, oldDue, new, newDue, hparted⟩ := h
  obtain ⟨since', old', oldDue', new', newDue', hparted', -⟩ := parted_step hparted hsafe
  exact ⟨since', old', oldDue', new', newDue', hparted'⟩

theorem IsWhole.step {before : List (Desc P)} {sent : List (Word P)} {c : Cycle P}
    (h : IsWhole mem before sent b) (hsafe : StopSafe b c) (hquiet : c.accelStop = false) :
    IsWhole mem before sent (b.step mem c) := by
  obtain ⟨since, old, oldDue, new, newDue, hparted, hwhole⟩ := h
  obtain ⟨since', old', oldDue', new', newDue', hparted', hkeep⟩ := parted_step hparted hsafe
  exact ⟨since', old', oldDue', new', newDue', hparted', hkeep hquiet hwhole⟩

/-- With nothing left to do, nothing is due. -/
theorem Lives.eq_nil {ws : List (Word P)} (h : Lives mem b ws) (hleft : b.left mem = 0) :
    ws = [] := by
  rcases h with ⟨-, rfl⟩ | ⟨-, rfl⟩
  · exact (live_of_left hleft).1
  · rfl

/-- **A stop cuts off what was taken before it, and nothing else.**  In a run in which every
descriptor offered after a stop finds the engine waiting, for any point of the run and any
later one: the words put out are those of the descriptors taken before the point, each cut
off somewhere or whole, and then those of the descriptors taken since.  If there is no stop
after the point, none of these is cut off, and after as many cycles with a descriptor on
offer and a ready receiver as `Bench.left` says, all of them are put out. -/
theorem stops_of_stopSafe (mem : Banks P) {b : Bench P} (hstart : b.Start ds)
    {cycles : List (Cycle P)} (hsafe : Meets (Bench.step mem) StopSafe b cycles) :
    let e := run (Bench.step mem) b cycles
    ∀ after, Meets (Bench.step mem) StopSafe e after →
      let f := run (Bench.step mem) e after
      (∃ since old new, f.accepted = e.accepted ++ since ∧ f.out = old ++ new ∧ e.out <+: old ∧
        Cut mem e.accepted old ∧ Cut mem since new) ∧
      (Meets (Bench.step mem) (fun _ c => c.accelStop = false) e after →
        ∃ since old new, f.accepted = e.accepted ++ since ∧ f.out = old ++ new ∧
          e.out <+: old ∧ Cut mem e.accepted old ∧ new <+: since.flatMap (words mem) ∧
          (e.left mem ≤ tally (Bench.step mem) Feeds e after →
            f.pending = [] ∧ new = since.flatMap (words mem))) := by
  intro e after hafter f
  have hhere : IsWhole mem e.accepted e.out e := by
    have hparted : IsParted mem [] [] e :=
      run_invariant (fun _ _ h hc => h.step hc) ⟨_, _, _, _, _, hstart.parted⟩ hsafe
    obtain ⟨since, old, oldDue, new, newDue, hparted⟩ := hparted
    exact hparted.here
  refine ⟨?_, ?_⟩
  · obtain ⟨since₀, old₀, oldDue₀, new₀, newDue₀, hparted₀, -⟩ := hhere
    have hparted : IsParted mem e.accepted e.out f :=
      run_invariant (fun _ _ h hc => h.step hc) ⟨_, _, _, _, _, hparted₀⟩ hafter
    obtain ⟨since, old, oldDue, new, newDue, hparted⟩ := hparted
    exact ⟨since, old, new, hparted.accepted, hparted.out, hparted.sent,
      hparted.cutBefore.shorten (List.prefix_append _ _),
      hparted.cutSince.shorten (List.prefix_append _ _)⟩
  · intro hquiet
    have hboth : Meets (Bench.step mem) (fun s c => StopSafe s c ∧ c.accelStop = false) e after :=
      hafter.and hquiet
    have hinv : ∀ s c, IsWhole mem e.accepted e.out s → StopSafe s c ∧ c.accelStop = false →
        IsWhole mem e.accepted e.out (s.step mem c) := fun _ _ h hc => h.step hc.1 hc.2
    have hwhole : IsWhole mem e.accepted e.out f := run_invariant hinv hhere hboth
    obtain ⟨since, old, oldDue, new, newDue, hparted, hall, -⟩ := hwhole
    refine ⟨since, old, new, hparted.accepted, hparted.out, hparted.sent,
      hparted.cutBefore.shorten (List.prefix_append _ _), ⟨newDue, hall⟩, ?_⟩
    intro hfed
    have hrank := run_exhausts (D := Feeds) (m := Bench.left mem) hinv
      (fun s c h hc => by
        obtain ⟨_, _, _, _, _, hlives, -⟩ := h
        exact left_step_of_stopSafe hlives.lives hc.1) hhere hboth
    have hleft : f.left mem = 0 := Nat.le_zero.mp (Nat.le_trans hrank (by omega))
    obtain ⟨-, hpend⟩ := live_of_left hleft
    have hdue := hparted.lives.eq_nil hleft
    obtain ⟨-, hnew⟩ := List.append_eq_nil_iff.mp hdue
    rw [hnew, List.append_nil] at hall
    exact ⟨hpend, hall⟩

/-- Five words, of which the queue holds two when the receiver does not take them. -/
def longDesc : Desc sampleConfig := ⟨⟨0, 10⟩, by decide, by decide⟩

/-- The receiver is not ready until the transfer stands still, and then the engine is
stopped. -/
def stalledStop : List (Cycle sampleConfig) :=
  List.replicate 12 (offering false false) ++ [⟨false, ⟨0, 0⟩, true, false⟩]

theorem stops_of_stopSafe_stalled :
    let e := run (Bench.step sampleBanks) (sampleBench [longDesc, sampleDesc]) stalledStop
    let after := List.replicate 30 (offering false true)
    let f := run (Bench.step sampleBanks) e after
    f.out = (words sampleBanks longDesc).take 1 ++ words sampleBanks sampleDesc ∧
      ∃ since old new, f.accepted = e.accepted ++ since ∧ f.out = old ++ new ∧ e.out <+: old ∧
        Cut sampleBanks e.accepted old ∧ new <+: since.flatMap (words sampleBanks) ∧
        (e.left sampleBanks ≤ tally (Bench.step sampleBanks) Feeds e after →
          f.pending = [] ∧ new = since.flatMap (words sampleBanks)) :=
  ⟨by decide +kernel,
    (stops_of_stopSafe sampleBanks (sampleBench_start [longDesc, sampleDesc])
      (by decide +kernel : Meets _ StopSafe _ stalledStop) _ (by decide +kernel)).2
      (by decide +kernel)⟩

end Runs

end Rosebud.AccelRdDma
