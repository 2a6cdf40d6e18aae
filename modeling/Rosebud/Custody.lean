import Mathlib.Data.Finset.Basic
import Mathlib.Data.List.Nodup
import Mathlib.Logic.Function.Basic

/-! # Items that have to be returned

A handler receives items into places and returns each of them once.  Between the two an item
is in its place, and the place is in a queue of work in progress, in a set of places put
aside, or in the handler's hands.  Items are numbered in the order they are received.

`Book` is the record of this, and `Sound hand` says that it is in order while the handler has
the place `hand` in its hands: no item was returned twice, and the items that were not
returned are the last ones of the places that are somewhere.  Each thing a handler can do has
a rule that says from which `Sound` to which it leads.
-/
namespace Custody
variable {ι : Type}

/-- The place of each item received, the last item of each place, the items returned, and the
places in the queue and those put aside. -/
structure Book (ι : Type) where
  received : List ι
  last : ι → Option Nat
  sent : List Nat
  queue : List ι
  held : Finset ι

section Moves
variable (b : Book ι) (s : ι)

def Book.send : Book ι := { b with sent := b.sent ++ (b.last s).toList }

def Book.start : Book ι := { b with queue := b.queue ++ [s] }

def Book.finish : Book ι := { b with queue := b.queue.tail }

variable [DecidableEq ι]

def Book.receive : Book ι :=
  { b with
    received := b.received ++ [s]
    last := Function.update b.last s (some b.received.length) }

def Book.hold : Book ι := { b with held := insert s b.held }

def Book.unhold : Book ι := { b with held := b.held.erase s }

end Moves

/-- The item of the place was returned, or there never was one. -/
def Book.Free (b : Book ι) (s : ι) : Prop := ∀ k, b.last s = some k → k ∈ b.sent

/-- The place is in the queue, put aside or in hand. -/
def Book.Has (b : Book ι) (hand : Option ι) (s : ι) : Prop :=
  s ∈ b.queue ∨ s ∈ b.held ∨ hand = some s

structure Sound (hand : Option ι) (b : Book ι) : Prop where
  last_at : ∀ s k, b.last s = some k → b.received[k]? = some s
  unsent : ∀ s, b.Has hand s → ∃ k, b.last s = some k ∧ k ∉ b.sent
  found : ∀ k, k < b.received.length → k ∈ b.sent ∨ ∃ s, b.last s = some k ∧ b.Has hand s
  sent_lt : ∀ k ∈ b.sent, k < b.received.length
  sent_nodup : b.sent.Nodup
  queue_nodup : b.queue.Nodup
  apart : ∀ s ∈ b.queue, s ∉ b.held
  in_hand : ∀ s, hand = some s → s ∉ b.queue ∧ s ∉ b.held

/-- Nothing received, nothing anywhere. -/
theorem sound_empty : Sound none (⟨[], fun _ => none, [], [], ∅⟩ : Book ι) where
  last_at _ _ h := absurd h.symm (Option.some_ne_none _)
  unsent s h := by
    rcases h with h | h | h
    · exact absurd h List.not_mem_nil
    · exact absurd h (Finset.notMem_empty s)
    · exact absurd h.symm (Option.some_ne_none _)
  found k h := absurd h (Nat.not_lt_zero k)
  sent_lt k h := absurd h List.not_mem_nil
  sent_nodup := List.nodup_nil
  queue_nodup := List.nodup_nil
  apart s h := absurd h List.not_mem_nil
  in_hand _ h := absurd h.symm (Option.some_ne_none _)

section Rules
variable {b : Book ι} {s : ι}

theorem Sound.last_injective {hand : Option ι} (h : Sound hand b) {t : ι} {k : Nat}
    (hs : b.last s = some k) (ht : b.last t = some k) : s = t :=
  Option.some.inj ((h.last_at s k hs).symm.trans (h.last_at t k ht))

/-- The item in hand is returned. -/
theorem Sound.send (h : Sound (some s) b) : Sound none (b.send s) := by
  obtain ⟨k, hk, hunsent⟩ := h.unsent s (.inr (.inr rfl))
  have hsent : (b.send s).sent = b.sent ++ [k] := by
    change b.sent ++ (b.last s).toList = _
    rw [hk]
    rfl
  have hkeep : ∀ t, (b.send s).Has none t → b.Has (some s) t ∧ t ≠ s := by
    intro t ht
    rcases ht with hq | hh | hn
    · refine ⟨.inl hq, ?_⟩
      rintro rfl
      exact (h.in_hand t rfl).1 hq
    · refine ⟨.inr (.inl hh), ?_⟩
      rintro rfl
      exact (h.in_hand t rfl).2 hh
    · exact absurd hn.symm (Option.some_ne_none _)
  refine ⟨h.last_at, ?_, ?_, ?_, ?_, h.queue_nodup, h.apart, fun _ hn =>
    absurd hn.symm (Option.some_ne_none _)⟩
  · intro t ht
    obtain ⟨hhas, hne⟩ := hkeep t ht
    obtain ⟨j, hj, hjunsent⟩ := h.unsent t hhas
    refine ⟨j, hj, ?_⟩
    rw [hsent]
    intro hmem
    rcases List.mem_append.mp hmem with hmem | hmem
    · exact hjunsent hmem
    · rw [List.mem_singleton] at hmem
      exact hne (h.last_injective (hmem ▸ hj) hk)
  · intro j hj
    rw [hsent]
    rcases h.found j hj with hsent | ⟨t, ht, hhas⟩
    · exact .inl (List.mem_append_left _ hsent)
    · rcases hhas with hq | hh | hn
      · exact .inr ⟨t, ht, .inl hq⟩
      · exact .inr ⟨t, ht, .inr (.inl hh)⟩
      · obtain rfl : s = t := Option.some.inj hn
        have hjk : j = k := Option.some.inj (ht.symm.trans hk)
        exact .inl (List.mem_append_right _ (List.mem_singleton.mpr hjk))
  · intro j hj
    rw [hsent] at hj
    rcases List.mem_append.mp hj with hj | hj
    · exact h.sent_lt j hj
    · rw [List.mem_singleton.mp hj]
      exact (List.getElem?_eq_some_iff.mp (h.last_at s k hk)).1
  · rw [hsent, List.nodup_append]
    refine ⟨h.sent_nodup, List.nodup_singleton k, ?_⟩
    intro i hi j hj hij
    rw [List.mem_singleton.mp hj] at hij
    exact hunsent (hij ▸ hi)

/-- A place changes hands, and nothing else happens. -/
theorem Sound.moved {hand hand' : Option ι} {b' : Book ι} (h : Sound hand b)
    (hr : b'.received = b.received) (hl : b'.last = b.last) (hs : b'.sent = b.sent)
    (hhas : ∀ t, b'.Has hand' t ↔ b.Has hand t) (hq : b'.queue.Nodup)
    (ha : ∀ t ∈ b'.queue, t ∉ b'.held)
    (hi : ∀ t, hand' = some t → t ∉ b'.queue ∧ t ∉ b'.held) : Sound hand' b' := by
  refine ⟨?_, ?_, ?_, ?_, ?_, hq, ha, hi⟩
  · rw [hr, hl]
    exact h.last_at
  · intro t ht
    rw [hl, hs]
    exact h.unsent t ((hhas t).mp ht)
  · intro k hk
    rw [hr] at hk
    rw [hl, hs]
    rcases h.found k hk with hsent | ⟨t, ht, htas⟩
    · exact .inl hsent
    · exact .inr ⟨t, ht, (hhas t).mpr htas⟩
  · rw [hr, hs]
    exact h.sent_lt
  · rw [hs]
    exact h.sent_nodup

/-- The place in hand goes to the end of the queue. -/
theorem Sound.start (h : Sound (some s) b) : Sound none (b.start s) := by
  have hhas : ∀ t, (b.start s).Has none t ↔ b.Has (some s) t := by
    intro t
    change t ∈ b.queue ++ [s] ∨ t ∈ b.held ∨ _ ↔ _
    rw [List.mem_append, List.mem_singleton]
    constructor
    · rintro ((hq | rfl) | hh | hn)
      · exact .inl hq
      · exact .inr (.inr rfl)
      · exact .inr (.inl hh)
      · exact absurd hn.symm (Option.some_ne_none _)
    · rintro (hq | hh | hn)
      · exact .inl (.inl hq)
      · exact .inr (.inl hh)
      · exact .inl (.inr (Option.some.inj hn).symm)
  refine h.moved rfl rfl rfl hhas ?_ ?_ fun _ hn => absurd hn.symm (Option.some_ne_none _)
  · change (b.queue ++ [s]).Nodup
    rw [List.nodup_append]
    refine ⟨h.queue_nodup, List.nodup_singleton s, ?_⟩
    intro t ht u hu htu
    rw [List.mem_singleton.mp hu] at htu
    exact (h.in_hand s rfl).1 (htu ▸ ht)
  · intro t ht
    rcases List.mem_append.mp ht with ht | ht
    · exact h.apart t ht
    · rw [List.mem_singleton.mp ht]
      exact (h.in_hand s rfl).2

/-- The first place of the queue is taken in hand. -/
theorem Sound.finish (h : Sound none b) {rest : List ι} (hq : b.queue = s :: rest) :
    Sound (some s) b.finish := by
  have htail : b.finish.queue = rest := congrArg List.tail hq
  have hnodup := h.queue_nodup
  rw [hq, List.nodup_cons] at hnodup
  have hhas : ∀ t, b.finish.Has (some s) t ↔ b.Has none t := by
    intro t
    unfold Book.Has
    rw [htail, hq, List.mem_cons]
    constructor
    · rintro (hr | hh | hn)
      · exact .inl (.inr hr)
      · exact .inr (.inl hh)
      · exact .inl (.inl (Option.some.inj hn).symm)
    · rintro ((rfl | hr) | hh | hn)
      · exact .inr (.inr rfl)
      · exact .inl hr
      · exact .inr (.inl hh)
      · exact absurd hn.symm (Option.some_ne_none _)
  refine h.moved rfl rfl rfl hhas ?_ ?_ ?_
  · rw [htail]
    exact hnodup.2
  · intro t ht
    rw [htail] at ht
    exact h.apart t (hq ▸ List.mem_cons_of_mem s ht)
  · rintro t ht
    obtain rfl : s = t := Option.some.inj ht
    refine ⟨?_, h.apart s (hq ▸ List.mem_cons_self)⟩
    rw [htail]
    exact hnodup.1

variable [DecidableEq ι]

/-- A place that is free gets an item. -/
theorem Sound.receive (h : Sound none b) (hfree : b.Free s) : Sound (some s) (b.receive s) := by
  have hnone : ∀ t, b.Has none t → t ≠ s := by
    rintro t ht rfl
    obtain ⟨k, hk, hunsent⟩ := h.unsent t ht
    exact hunsent (hfree k hk)
  have hother : ∀ t, t ≠ s → (b.receive s).last t = b.last t := fun t ht =>
    Function.update_of_ne ht _ _
  have hself : (b.receive s).last s = some b.received.length := Function.update_self _ _ _
  have hsplit : ∀ t, (b.receive s).Has (some s) t → t = s ∨ b.Has none t := by
    intro t ht
    rcases ht with ht | ht | ht
    · exact .inr (.inl ht)
    · exact .inr (.inr (.inl ht))
    · exact .inl (Option.some.inj ht).symm
  refine ⟨?_, ?_, ?_, ?_, h.sent_nodup, h.queue_nodup, h.apart, ?_⟩
  · intro t k hk
    by_cases ht : t = s
    · rw [ht, hself] at hk
      rw [ht, ← Option.some.inj hk]
      exact List.getElem?_concat_length
    · rw [hother t ht] at hk
      have hat := h.last_at t k hk
      have hlt : k < b.received.length := (List.getElem?_eq_some_iff.mp hat).1
      exact (List.getElem?_append_left hlt).trans hat
  · intro t ht
    rcases hsplit t ht with rfl | ht
    · refine ⟨_, hself, fun hsent => ?_⟩
      exact Nat.lt_irrefl _ (h.sent_lt _ hsent)
    · obtain ⟨k, hk, hunsent⟩ := h.unsent t ht
      exact ⟨k, (hother t (hnone t ht)).trans hk, hunsent⟩
  · intro k hk
    change k < (b.received ++ [s]).length at hk
    rw [List.length_append, List.length_singleton] at hk
    rcases Nat.lt_succ_iff_lt_or_eq.mp hk with hk | rfl
    · rcases h.found k hk with hsent | ⟨t, ht, hhas⟩
      · exact .inl hsent
      · refine .inr ⟨t, (hother t (hnone t hhas)).trans ht, ?_⟩
        rcases hhas with hq | hh | hn
        · exact .inl hq
        · exact .inr (.inl hh)
        · exact absurd hn.symm (Option.some_ne_none _)
    · exact .inr ⟨s, hself, .inr (.inr rfl)⟩
  · intro k hk
    change k < (b.received ++ [s]).length
    rw [List.length_append]
    exact Nat.lt_add_right _ (h.sent_lt k hk)
  · rintro t ht
    obtain rfl : s = t := Option.some.inj ht
    exact ⟨fun hq => hnone s (.inl hq) rfl, fun hh => hnone s (.inr (.inl hh)) rfl⟩

/-- The place in hand is put aside. -/
theorem Sound.hold (h : Sound (some s) b) : Sound none (b.hold s) := by
  have hhas : ∀ t, (b.hold s).Has none t ↔ b.Has (some s) t := by
    intro t
    change _ ∨ t ∈ insert s b.held ∨ _ ↔ _
    rw [Finset.mem_insert]
    constructor
    · rintro (hq | (rfl | hh) | hn)
      · exact .inl hq
      · exact .inr (.inr rfl)
      · exact .inr (.inl hh)
      · exact absurd hn.symm (Option.some_ne_none _)
    · rintro (hq | hh | hn)
      · exact .inl hq
      · exact .inr (.inl (.inr hh))
      · exact .inr (.inl (.inl (Option.some.inj hn).symm))
  refine h.moved rfl rfl rfl hhas h.queue_nodup ?_ fun _ hn =>
    absurd hn.symm (Option.some_ne_none _)
  intro t ht hheld
  rcases Finset.mem_insert.mp hheld with rfl | hheld
  · exact (h.in_hand t rfl).1 ht
  · exact h.apart t ht hheld

/-- A place that was put aside is taken in hand. -/
theorem Sound.unhold (h : Sound none b) (hs : s ∈ b.held) : Sound (some s) (b.unhold s) := by
  have hhas : ∀ t, (b.unhold s).Has (some s) t ↔ b.Has none t := by
    intro t
    unfold Book.Has
    change _ ∨ t ∈ b.held.erase s ∨ _ ↔ _
    rw [Finset.mem_erase]
    constructor
    · rintro (hq | ⟨-, hh⟩ | hn)
      · exact .inl hq
      · exact .inr (.inl hh)
      · exact .inr (.inl (Option.some.inj hn ▸ hs))
    · rintro (hq | hh | hn)
      · exact .inl hq
      · by_cases hts : t = s
        · exact .inr (.inr (hts ▸ rfl))
        · exact .inr (.inl ⟨hts, hh⟩)
      · exact absurd hn.symm (Option.some_ne_none _)
  refine h.moved rfl rfl rfl hhas h.queue_nodup
    (fun t ht hh => h.apart t ht (Finset.mem_of_mem_erase hh)) ?_
  intro t ht
  obtain rfl : s = t := Option.some.inj ht
  exact ⟨fun hq => h.apart s hq hs, Finset.notMem_erase s b.held⟩

end Rules

end Custody
