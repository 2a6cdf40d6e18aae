import Mathlib.Data.List.Infix
import Mathlib.Data.List.Sort
import Mathlib.Logic.Function.Basic

/-! # The generated matcher of the firewall

`ip_match_generator.py` writes `firewall.v` from a table of address prefixes.  The prefixes are
split at `first_lvl_len` bits: those with the same first bits become one table, a `casex` over the
bits that follow, as wide as the longest of them, and those of just that length are items of the
`case` over the first bits.

The generator is a function from the prefixes to the modules it writes, and the modules are given
the meaning of their `case` and `casex` statements.  `lookup_iff` says that the two levels together
look for a prefix of the address.
-/
namespace Rosebud.IpMatchGenerator

/-- A string of the digits 0 and 1. -/
abbrev Bits := List Bool

/-! ## The generator -/

def firstLvlLen : Nat := 9

/-- `MSB_dict`, with its keys in the order of their insertion. -/
structure MsbDict where
  keys : List Bits
  get : Bits → List Bits

namespace MsbDict
variable (d : MsbDict)

/-- `MSB_dict[k].append(x)` -/
def append (k x : Bits) : MsbDict := { d with get := Function.update d.get k (d.get k ++ [x]) }

/-- `MSB_dict[k] = [x]` for a new key. -/
def insert (k x : Bits) : MsbDict where
  keys := d.keys ++ [k]
  get := Function.update d.get k [x]

end MsbDict

/-- What `splitter` has made so far, and whether it printed `ERROR`. -/
structure Split where
  firstLvl : List Bits
  msbDict : MsbDict
  error : Bool

def Split.empty : Split := ⟨[], ⟨[], fun _ => []⟩, false⟩

/-- The body of the loop of `splitter`. -/
def splitStep (offset : Nat) (s : Split) (x : Bits) : Split :=
  let k := x.take offset
  if k ∈ s.msbDict.keys then
    if x.length ≠ offset then { s with msbDict := s.msbDict.append k (x.drop offset) }
    else { s with error := true }
  else
    -- since list is sorted based on number of wildcards
    if x.length = offset then { s with firstLvl := s.firstLvl ++ [x] }
    else { s with msbDict := s.msbDict.insert k (x.drop offset) }

/-- `sorted(prefixes, key=lambda x: len(x), reverse=True)`: those of the same length stay in
their order. -/
def sortedByLen (prefixes : List Bits) : List Bits :=
  prefixes.insertionSort fun x y => y.length ≤ x.length

def splitter (prefixes : List Bits) (offset : Nat) : Split :=
  (sortedByLen prefixes).foldl (splitStep offset) .empty

/-- The order of strings. -/
def strLe : Bits → Bits → Bool
  | [], _ => true
  | _ :: _, [] => false
  | a :: x, b :: y => if a = b then strLe x y else b

/-- `max([len(x) for x in xs])` -/
def maxLen (xs : List Bits) : Nat := (xs.map List.length).foldr max 0

/-- `fill`: question marks, by their number. -/
def fill (maxPrefixLen : Nat) : List (List (Option Bool)) :=
  [] :: (List.range' 1 (maxPrefixLen - 1)).map fun i => List.replicate i none

/-- A module `table_k`: the width of its address and the items of its `casex`, in which a question
mark is `none`. -/
structure Table where
  key : Bits
  addrLen : Nat
  items : List (List (Option Bool))

/-- What `table_writer` writes for a key. -/
def writeTable (maxPrefixLen : Nat) (d : MsbDict) (k : Bits) : Table where
  key := k
  addrLen := maxLen (d.get k)
  items := (d.get k).map fun x =>
    x.map some ++ (fill maxPrefixLen).getD (maxLen (d.get k) - x.length) []

/-- What is written: the tables, and the items of the `case` that have no table. -/
structure Design where
  tables : List Table
  firstLvl : List Bits

def generate (prefixTable : List Bits) : Design :=
  let s := splitter prefixTable firstLvlLen
  { tables := (s.msbDict.keys.insertionSort fun x y => strLe x y = true).map
      (writeTable (maxLen prefixTable) s.msbDict)
    firstLvl := s.firstLvl }

/-! ## The meaning of what it writes -/

/-- The bits of `addr[hi:lo]`, the highest one first. -/
def slice (addr : BitVec 32) (hi lo : Nat) : Bits :=
  (List.range (hi + 1 - lo)).map fun j => addr.getLsbD (hi - j)

/-- All the bits of an address. -/
def toBits (addr : BitVec 32) : Bits := slice addr 31 0

/-- An item of a `casex` against the value. -/
def casex : List (Option Bool) → Bits → Bool
  | [], [] => true
  | none :: item, _ :: bits => casex item bits
  | some a :: item, b :: bits => a == b && casex item bits
  | _, _ => false

/-- What the `casex` of a table makes of an address, of which the table sees the bits below the
first `first_lvl_len`. -/
def Table.lookup (t : Table) (addr : BitVec 32) : Bool :=
  t.items.any fun item =>
    casex item (slice addr (32 - firstLvlLen - 1) (32 - firstLvlLen - t.addrLen))

/-- The bits the `case` of the top module is over. -/
def msb (addr : BitVec 32) : Bits := slice addr 31 (32 - firstLvlLen)

/-- `match_n`, from the outputs of the tables and `addr_r`. -/
def Design.matchN (F : Design) (out : Table → Bool) (addrR : BitVec 32) : Bool :=
  match F.tables.find? (fun t => t.key == msb addrR) with
  | some t => out t
  | none => F.firstLvl.contains (msb addrR)

/-- An address is listed if one of the prefixes is a prefix of it. -/
def Listed (prefixTable : List Bits) (addr : BitVec 32) : Prop :=
  ∃ x ∈ prefixTable, x <+: toBits addr
deriving Decidable

/-- A table of prefixes for which the generator runs through without an `ERROR`. -/
structure PrefixTable where
  prefixes : List Bits
  firstLvlLen_le : ∀ x ∈ prefixes, firstLvlLen ≤ x.length
  length_le : ∀ x ∈ prefixes, x.length ≤ 32
  no_error : (splitter prefixes firstLvlLen).error = false
  -- the `max` of the last lines needs a table
  exists_longer : ∃ x ∈ prefixes, firstLvlLen < x.length

/-! ## The splitter -/

/-- What the splitter has made of the prefixes `xs`: the suffixes behind every key, the keys that
have one, and the prefixes that are as long as a key, none of which is one. -/
structure Splits (offset : Nat) (xs : List Bits) (s : Split) : Prop where
  mem_get : ∀ k x, x ∈ s.msbDict.get k ↔ k ++ x ∈ xs ∧ k.length = offset ∧ x ≠ []
  mem_keys : ∀ k, k ∈ s.msbDict.keys ↔ ∃ x, x ∈ s.msbDict.get k
  mem_firstLvl : ∀ x, x ∈ s.firstLvl ↔ x ∈ xs ∧ x.length = offset
  apart : ∀ x ∈ s.firstLvl, x ∉ s.msbDict.keys

theorem Splits.empty (offset : Nat) : Splits offset [] .empty where
  mem_get := by simp [Split.empty]
  mem_keys := by simp [Split.empty]
  mem_firstLvl := by simp [Split.empty]
  apart := by simp [Split.empty]

section Step
variable {offset : Nat} {xs : List Bits} {s : Split} {x : Bits}

/-- A key and a suffix put together are the prefix they come from. -/
theorem append_eq_iff {k y : Bits} (hk : k.length = offset) :
    k ++ y = x ↔ k = x.take offset ∧ y = x.drop offset := by
  constructor
  · rintro rfl
    subst hk
    simp
  · rintro ⟨rfl, rfl⟩
    exact List.take_append_drop offset x

theorem drop_ne_nil (hlt : offset < x.length) : x.drop offset ≠ [] := by
  rw [Ne, List.drop_eq_nil_iff]
  omega

section Longer
variable (h : Splits offset xs s) (hlt : offset < x.length)
include h hlt

/-- The suffix of a longer prefix goes behind its key. -/
theorem Splits.mem_update (k y : Bits) :
    y ∈ Function.update s.msbDict.get (x.take offset)
        (s.msbDict.get (x.take offset) ++ [x.drop offset]) k ↔
      k ++ y ∈ xs ++ [x] ∧ k.length = offset ∧ y ≠ [] := by
  have hlen : (x.take offset).length = offset := List.length_take_of_le (by omega)
  rw [List.mem_append, List.mem_singleton]
  by_cases hkx : k = x.take offset
  · subst hkx
    rw [Function.update_self, List.mem_append, List.mem_singleton, h.mem_get, append_eq_iff hlen]
    constructor
    · rintro (hy | rfl)
      · exact ⟨.inl hy.1, hy.2⟩
      · exact ⟨.inr ⟨rfl, rfl⟩, hlen, drop_ne_nil hlt⟩
    · rintro ⟨hy | hy, hne⟩
      · exact .inl ⟨hy, hne⟩
      · exact .inr hy.2
  · rw [Function.update_of_ne hkx, h.mem_get]
    constructor
    · rintro ⟨hy, hne⟩
      exact ⟨.inl hy, hne⟩
    · rintro ⟨hy | hy, hk, hne⟩
      · exact ⟨hy, hk, hne⟩
      · exact absurd ((append_eq_iff hk).mp hy).1 hkx

theorem Splits.mem_firstLvl_of_lt (y : Bits) :
    y ∈ s.firstLvl ↔ y ∈ xs ++ [x] ∧ y.length = offset := by
  rw [h.mem_firstLvl, List.mem_append, List.mem_singleton]
  constructor
  · rintro ⟨hy, hlen⟩
    exact ⟨.inl hy, hlen⟩
  · rintro ⟨hy | rfl, hlen⟩
    · exact ⟨hy, hlen⟩
    · omega

theorem Splits.append (hk : x.take offset ∈ s.msbDict.keys) :
    Splits offset (xs ++ [x])
      { s with msbDict := s.msbDict.append (x.take offset) (x.drop offset) } where
  mem_get := h.mem_update hlt
  mem_keys := by
    intro k
    by_cases hkx : k = x.take offset
    · subst hkx
      simp [MsbDict.append, hk]
    · simp [MsbDict.append, h.mem_keys, hkx]
  mem_firstLvl := h.mem_firstLvl_of_lt hlt
  apart := h.apart

/-- The prefixes come with the longest first, so that no key is new when one of them was as short
as a key. -/
theorem Splits.insert (hsorted : ∀ y ∈ xs, x.length ≤ y.length)
    (hk : x.take offset ∉ s.msbDict.keys) :
    Splits offset (xs ++ [x])
      { s with msbDict := s.msbDict.insert (x.take offset) (x.drop offset) } where
  mem_get := by
    have hget : s.msbDict.get (x.take offset) = [] := by
      rw [List.eq_nil_iff_forall_not_mem]
      intro y hy
      exact hk ((h.mem_keys _).mpr ⟨y, hy⟩)
    have hmem := h.mem_update hlt
    rw [hget] at hmem
    exact hmem
  mem_keys := by
    intro k
    by_cases hkx : k = x.take offset
    · subst hkx
      simp [MsbDict.insert]
    · simp [MsbDict.insert, h.mem_keys, hkx]
  mem_firstLvl := h.mem_firstLvl_of_lt hlt
  apart := by
    intro y hy
    obtain ⟨hmem, hlen⟩ := (h.mem_firstLvl y).mp hy
    have := hsorted y hmem
    omega

end Longer

theorem Splits.firstLvl (h : Splits offset xs s) (hlen : x.length = offset)
    (hk : x ∉ s.msbDict.keys) :
    Splits offset (xs ++ [x]) { s with firstLvl := s.firstLvl ++ [x] } where
  mem_get := by
    intro k y
    rw [h.mem_get, List.mem_append, List.mem_singleton]
    constructor
    · rintro ⟨hy, hne⟩
      exact ⟨.inl hy, hne⟩
    · rintro ⟨hy | hy, hlen', hne⟩
      · exact ⟨hy, hlen', hne⟩
      · -- the key would be all of the prefix
        rw [← hy, List.length_append] at hlen
        have := List.length_pos_iff.mpr hne
        omega
  mem_keys := h.mem_keys
  mem_firstLvl := by
    intro y
    rw [List.mem_append, List.mem_append, List.mem_singleton, h.mem_firstLvl]
    constructor
    · rintro (⟨hy, hlen'⟩ | rfl)
      · exact ⟨.inl hy, hlen'⟩
      · exact ⟨.inr rfl, hlen⟩
    · rintro ⟨hy | rfl, hlen'⟩
      · exact .inl ⟨hy, hlen'⟩
      · exact .inr rfl
  apart := by
    intro y hy
    rcases List.mem_append.mp hy with hy | hy
    · exact h.apart y hy
    · rw [List.mem_singleton.mp hy]
      exact hk

theorem error_splitStep (herror : (splitStep offset s x).error = false) : s.error = false := by
  revert herror
  rw [splitStep]
  split_ifs <;> simp

/-- **One prefix.**  Unless `ERROR` is printed for it. -/
theorem Splits.step (h : Splits offset xs s) (hle : offset ≤ x.length)
    (hsorted : ∀ y ∈ xs, x.length ≤ y.length) (herror : (splitStep offset s x).error = false) :
    Splits offset (xs ++ [x]) (splitStep offset s x) := by
  rw [splitStep] at herror ⊢
  by_cases hk : x.take offset ∈ s.msbDict.keys
  · rw [if_pos hk] at herror ⊢
    by_cases hlen : x.length = offset
    · rw [if_neg (not_not_intro hlen)] at herror
      exact absurd herror Bool.true_eq_false_eq_False
    · rw [if_pos hlen]
      exact h.append (by omega) hk
  · rw [if_neg hk]
    by_cases hlen : x.length = offset
    · rw [if_pos hlen]
      rw [List.take_of_length_le (by omega)] at hk
      exact h.firstLvl hlen hk
    · rw [if_neg hlen]
      exact h.insert (by omega) hsorted hk

end Step

/-- The splitter over prefixes with the longest first. -/
theorem splits_foldl {offset : Nat} {xs : List Bits} (hle : ∀ x ∈ xs, offset ≤ x.length)
    (hsorted : xs.Pairwise fun x y => y.length ≤ x.length)
    (herror : (xs.foldl (splitStep offset) .empty).error = false) :
    Splits offset xs (xs.foldl (splitStep offset) .empty) := by
  induction xs using List.reverseRecOn with
  | nil => exact .empty offset
  | append_singleton xs x ih =>
    rw [List.foldl_append] at herror ⊢
    rw [List.pairwise_append] at hsorted
    have h := ih (fun y hy => hle y (List.mem_append_left _ hy)) hsorted.1 (error_splitStep herror)
    refine h.step (hle x (by simp)) ?_ herror
    intro y hy
    exact hsorted.2.2 y hy x List.mem_cons_self

namespace PrefixTable
variable (T : PrefixTable)

/-- **The splitter.** -/
theorem splits : Splits firstLvlLen T.prefixes (splitter T.prefixes firstLvlLen) := by
  have hmem : ∀ x, x ∈ sortedByLen T.prefixes ↔ x ∈ T.prefixes :=
    fun x => List.mem_insertionSort _
  have h : Splits firstLvlLen (sortedByLen T.prefixes) (splitter T.prefixes firstLvlLen) :=
    splits_foldl (fun x hx => T.firstLvlLen_le x ((hmem x).mp hx))
      (List.pairwise_insertionSort _ T.prefixes) T.no_error
  refine ⟨?_, h.mem_keys, ?_, h.apart⟩
  · intro k x
    rw [← hmem]
    exact h.mem_get k x
  · intro x
    rw [← hmem]
    exact h.mem_firstLvl x

end PrefixTable

/-! ## Slices and items -/

section Slices
variable (addr : BitVec 32)

@[simp] theorem length_slice (hi lo : Nat) : (slice addr hi lo).length = hi + 1 - lo := by
  simp [slice]

theorem take_slice {hi lo n : Nat} (hn : lo + n ≤ hi + 1) :
    (slice addr hi lo).take n = slice addr hi (hi + 1 - n) := by
  have hwidth : min n (hi + 1 - lo) = hi + 1 - (hi + 1 - n) := by omega
  rw [slice, ← List.map_take, List.take_range, hwidth, slice]

theorem drop_slice {hi n : Nat} (hn : n ≤ hi) :
    (slice addr hi 0).drop n = slice addr (hi - n) 0 := by
  refine List.ext_getElem ?_ ?_
  · rw [List.length_drop, length_slice, length_slice]
    omega
  · intro j h₁ h₂
    have hbit : hi - (n + j) = hi - n - j := by omega
    simp [slice, hbit]

theorem msb_eq_take : msb addr = (toBits addr).take firstLvlLen :=
  (take_slice addr (by decide)).symm

theorem length_msb : (msb addr).length = firstLvlLen := length_slice addr _ _

/-- The bits a table sees are the first ones after the key. -/
theorem slice_eq_take {n : Nat} (hn : n ≤ 32 - firstLvlLen) :
    slice addr (32 - firstLvlLen - 1) (32 - firstLvlLen - n) =
      ((toBits addr).drop firstLvlLen).take n := by
  rw [toBits, drop_slice addr (by decide), take_slice addr (by omega)]
  rfl

end Slices

theorem casex_replicate (n : Nat) (bits : Bits) (h : bits.length = n) :
    casex (List.replicate n none) bits = true := by
  induction n generalizing bits with
  | zero =>
    obtain rfl := List.length_eq_zero_iff.mp h
    rfl
  | succ n ih =>
    obtain ⟨b, bits, rfl⟩ := List.exists_cons_of_length_eq_add_one h
    exact ih bits (by simpa using h)

/-- An item filled up with question marks. -/
theorem casex_fill (x : Bits) (n : Nat) (bits : Bits) (h : bits.length = x.length + n) :
    casex (x.map some ++ List.replicate n none) bits = true ↔ x <+: bits := by
  induction x generalizing bits with
  | nil => simpa using casex_replicate n bits (by simpa using h)
  | cons a x ih =>
    cases bits with
    | nil =>
      simp only [List.length_nil, List.length_cons] at h
      omega
    | cons b bits =>
      have hlen : bits.length = x.length + n := by
        simp only [List.length_cons] at h
        omega
      rw [List.cons_prefix_cons, ← ih bits hlen]
      simp [casex]

theorem getD_fill {m i : Nat} (h : i < m) : (fill m).getD i [] = List.replicate i none := by
  cases i with
  | zero => rfl
  | succ i =>
    have hi : i < m - 1 := by omega
    simp [fill, List.getD_eq_getElem?_getD, hi, Nat.add_comm]

theorem length_le_maxLen {xs : List Bits} {x : Bits} (h : x ∈ xs) : x.length ≤ maxLen xs := by
  induction xs with
  | nil => cases h
  | cons y xs ih =>
    rcases List.mem_cons.mp h with rfl | h
    · exact Nat.le_max_left _ _
    · exact (ih h).trans (Nat.le_max_right _ _)

theorem maxLen_le {xs : List Bits} {n : Nat} (h : ∀ x ∈ xs, x.length ≤ n) : maxLen xs ≤ n := by
  induction xs with
  | nil => exact Nat.zero_le n
  | cons y xs ih =>
    exact Nat.max_le.mpr ⟨h y List.mem_cons_self, ih fun x hx => h x (List.mem_cons_of_mem y hx)⟩

/-! ## The lookup -/

namespace PrefixTable
variable (T : PrefixTable) {k x : Bits}

/-- The dictionary the tables are written from. -/
def msbDict : MsbDict := (splitter T.prefixes firstLvlLen).msbDict

/-- The table of a key. -/
def table (k : Bits) : Table := writeTable (maxLen T.prefixes) T.msbDict k

/-- What the generator writes. -/
def design : Design := generate T.prefixes

variable {T}

theorem length_suffix_le {n : Nat} (hn : ∀ x ∈ T.prefixes, x.length ≤ n) :
    ∀ x ∈ T.msbDict.get k, firstLvlLen + x.length ≤ n := by
  intro x hx
  obtain ⟨hmem, hk, -⟩ := (T.splits.mem_get k x).mp hx
  have := hn _ hmem
  rwa [List.length_append, hk] at this

theorem addrLen_le : (T.table k).addrLen ≤ 32 - firstLvlLen := by
  refine maxLen_le ?_
  intro x hx
  have := length_suffix_le T.length_le x hx
  omega

/-- There are enough question marks. -/
theorem fill_lt (hx : x ∈ T.msbDict.get k) :
    maxLen (T.msbDict.get k) - x.length < maxLen T.prefixes := by
  have hsuffix : ∀ y ∈ T.msbDict.get k, firstLvlLen + y.length ≤ maxLen T.prefixes :=
    length_suffix_le fun y hy => length_le_maxLen hy
  have hmax : maxLen (T.msbDict.get k) ≤ maxLen T.prefixes - firstLvlLen := by
    refine maxLen_le ?_
    intro y hy
    have := hsuffix y hy
    omega
  have hx' := hsuffix x hx
  have hfirst : 0 < firstLvlLen := by decide
  omega

/-- A table finds the suffixes of its key that the address goes on with. -/
theorem lookup_table (addr : BitVec 32) :
    (T.table k).lookup addr = true ↔
      ∃ x ∈ T.msbDict.get k, x <+: (toBits addr).drop firstLvlLen := by
  rw [Table.lookup, List.any_eq_true, slice_eq_take addr addrLen_le]
  have hitem : ∀ x ∈ T.msbDict.get k,
      (casex (x.map some ++ (fill (maxLen T.prefixes)).getD
          (maxLen (T.msbDict.get k) - x.length) [])
        (((toBits addr).drop firstLvlLen).take (T.table k).addrLen) = true ↔
        x <+: (toBits addr).drop firstLvlLen) := by
    intro x hx
    have hle : x.length ≤ (T.table k).addrLen := length_le_maxLen hx
    have hwidth := addrLen_le (T := T) (k := k)
    rw [getD_fill (fill_lt hx), casex_fill, List.prefix_take_iff]
    · exact and_iff_left hle
    · rw [List.length_take, List.length_drop, toBits, length_slice]
      change min (T.table k).addrLen _ = x.length + ((T.table k).addrLen - x.length)
      omega
  constructor
  · rintro ⟨item, hmem, hcase⟩
    obtain ⟨x, hx, rfl⟩ := List.mem_map.mp hmem
    exact ⟨x, hx, (hitem x hx).mp hcase⟩
  · rintro ⟨x, hx, hprefix⟩
    exact ⟨_, List.mem_map_of_mem hx, (hitem x hx).mpr hprefix⟩

/-- The `case` takes the table of the key. -/
theorem find_table (k : Bits) : T.design.tables.find? (fun t => t.key == k) =
    if k ∈ T.msbDict.keys then some (T.table k) else none := by
  have hmem : k ∈ T.msbDict.keys.insertionSort (fun x y => strLe x y = true) ↔
      k ∈ T.msbDict.keys := List.mem_insertionSort _
  change ((T.msbDict.keys.insertionSort _).map T.table).find? _ = _
  rw [List.find?_map]
  cases hfind : (T.msbDict.keys.insertionSort (fun x y => strLe x y = true)).find?
      ((fun t => t.key == k) ∘ T.table) with
  | none =>
    have hnone := List.find?_eq_none.mp hfind
    rw [if_neg, Option.map_none]
    intro hk
    exact hnone k (hmem.mpr hk) (beq_self_eq_true k)
  | some k' =>
    have hkey : ((fun t => t.key == k) ∘ T.table) k' = true := List.find?_some hfind
    obtain rfl : k' = k := eq_of_beq hkey
    rw [if_pos (hmem.mp (List.mem_of_find?_eq_some hfind)), Option.map_some]

theorem take_eq_msb {addr : BitVec 32} (hx : x <+: toBits addr) (hle : firstLvlLen ≤ x.length) :
    x.take firstLvlLen = msb addr := by
  rw [msb_eq_take]
  obtain ⟨y, hy⟩ := hx
  rw [← hy, List.take_append_of_le_length hle]

/-- **The two levels together look for a prefix of the address.** -/
theorem lookup_iff (addr : BitVec 32) :
    T.design.matchN (·.lookup addr) addr = true ↔ Listed T.prefixes addr := by
  have hsplits := T.splits
  have hbits : msb addr ++ (toBits addr).drop firstLvlLen = toBits addr := by
    rw [msb_eq_take]
    exact List.take_append_drop _ _
  rw [Design.matchN, find_table]
  by_cases hk : msb addr ∈ T.msbDict.keys
  · -- all the prefixes with this key are in the table
    rw [if_pos hk, lookup_table]
    constructor
    · rintro ⟨x, hx, hprefix⟩
      refine ⟨msb addr ++ x, ((hsplits.mem_get _ _).mp hx).1, ?_⟩
      exact (List.prefix_append_right_inj _).mpr hprefix
    · rintro ⟨x, hx, hprefix⟩
      have hle := T.firstLvlLen_le x hx
      have htake := take_eq_msb hprefix hle
      refine ⟨x.drop firstLvlLen, (hsplits.mem_get _ _).mpr ⟨?_, length_msb addr, ?_⟩, ?_⟩
      · rwa [← htake, List.take_append_drop]
      · -- a prefix as short as the key would have been an error
        intro hnil
        have hlen : x.length = firstLvlLen := by
          have := List.drop_eq_nil_iff.mp hnil
          omega
        have hfirst := (hsplits.mem_firstLvl x).mpr ⟨hx, hlen⟩
        rw [← htake, List.take_of_length_le hlen.le] at hk
        exact hsplits.apart x hfirst hk
      · rw [← List.prefix_append_right_inj (msb addr), hbits, ← htake, List.take_append_drop]
        exact hprefix
  · rw [if_neg hk]
    constructor
    · intro hcontains
      have hfirst : msb addr ∈ T.design.firstLvl := List.contains_iff_mem.mp hcontains
      refine ⟨msb addr, ((hsplits.mem_firstLvl _).mp hfirst).1, ?_⟩
      rw [msb_eq_take]
      exact List.take_prefix _ _
    · rintro ⟨x, hx, hprefix⟩
      have hle := T.firstLvlLen_le x hx
      have htake := take_eq_msb hprefix hle
      -- a longer prefix would have made the key
      have hlen : x.length = firstLvlLen := by
        by_contra hne
        refine hk ((hsplits.mem_keys _).mpr ⟨x.drop firstLvlLen, ?_⟩)
        refine (hsplits.mem_get _ _).mpr ⟨?_, length_msb addr, drop_ne_nil (by omega)⟩
        rwa [← htake, List.take_append_drop]
      rw [List.take_of_length_le hlen.le] at htake
      rw [← htake]
      exact List.contains_iff_mem.mpr ((hsplits.mem_firstLvl x).mpr ⟨hx, hlen⟩)

end PrefixTable
end Rosebud.IpMatchGenerator
