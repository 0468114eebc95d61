import WordC.Proofs.Machine.Stack
/-!
Which addresses the stack can be accessed at.

An access is tested for its alignment and then for its bounds.  The upper bound is tested
on a sum that wraps around, and there is one address at which it does: `blindSpot`, whose
offset is the last multiple of eight.  At every other address the tests are exact.
-/

namespace WordC
namespace Machine
namespace Stack

/-- The word at an address is the eight bytes from index `i` on. -/
structure Spans (s : Stack) (address : Word) (i : Nat) : Prop where
  place : address.toInt = base.toInt + i
  within : i + 8 ≤ s.size

/-- The greatest offset of an aligned address. -/
def lastOffset : Word := 9223372036854775800

/-- Eight bytes past the offset of this address are before all others. -/
def blindSpot : Word := base + lastOffset

/-- What the search for an address gives. -/
inductive Locates (s : Stack) (address : Word) : Except Trap Nat → Prop where
  | inside {i : Nat} : address % 8 = 0 → s.Spans address i → Locates s address (.ok i)
  | misaligned : address % 8 ≠ 0 → Locates s address (.error (.fault (.misaligned address)))
  | outside : address % 8 = 0 → address ≠ blindSpot → (∀ i, ¬ s.Spans address i) →
      Locates s address (.error (.fault (.outsideStack address)))
  | blind : address = blindSpot →
      Locates s address (.error (.crash (.pastEnd lastOffset s.size)))

section Offsets

variable (address : Word)

/-- The offset of an address, which may wrap around. -/
theorem toInt_sub_base :
    (address - base).toInt = address.toInt - 0x7fff0000 ∨
      (address - base).toInt = address.toInt - 0x7fff0000 + 2 ^ 64 ∧
        2 ^ 63 - 0x7fff0000 ≤ (address - base).toInt := by
  have hlow := Int64.le_toInt address
  have hhigh := Int64.toInt_lt address
  have hbase : base.toInt = 0x7fff0000 := rfl
  rw [Int64.toInt_sub, hbase, Int.bmod_def]
  split <;> omega

theorem toInt_add_eight (offset : Word) :
    (offset + 8).toInt = offset.toInt + 8 ∧ offset.toInt < 2 ^ 63 - 8 ∨
      (offset + 8).toInt = offset.toInt + 8 - 2 ^ 64 ∧ 2 ^ 63 - 8 ≤ offset.toInt := by
  have hlow := Int64.le_toInt offset
  have hhigh := Int64.toInt_lt offset
  have height : (8 : Int64).toInt = 8 := rfl
  rw [Int64.toInt_add, height, Int.bmod_def]
  split <;> omega

theorem mod_eight_iff : address % 8 = 0 ↔ address.toInt % 8 = 0 := by
  have height : (8 : Int64).toInt = 8 := rfl
  have hzero : (0 : Int64).toInt = 0 := rfl
  rw [← Int64.toInt_inj, Int64.toInt_mod, height, hzero, ← Int.dvd_iff_tmod_eq_zero]
  omega

theorem eq_blindSpot_iff : address = blindSpot ↔ (address - base).toInt = 2 ^ 63 - 8 := by
  have hlast : lastOffset.toInt = 2 ^ 63 - 8 := rfl
  rw [← hlast, Int64.toInt_inj, blindSpot]
  constructor
  · rintro rfl
    rw [Int64.add_comm, Int64.add_sub_cancel]
  · intro h
    rw [← h, Int64.add_comm, Int64.sub_add_cancel]

end Offsets

/-- The search finds the bytes of an address that has them, and only of such a one. -/
theorem locates {s : Stack} (hsize : s.size < 2 ^ 62) (address : Word) :
    s.Locates address (s.locate address) := by
  have hoffset := toInt_sub_base address
  have hhigh := Int64.toInt_lt (address - base)
  have hnext := toInt_add_eight (address - base)
  have hstack : (Int64.ofNat s.size).toInt = s.size := Int64.toInt_ofNat_of_lt (by omega)
  have hblind := eq_blindSpot_iff address
  rw [locate]
  by_cases halign : address % 8 ≠ 0
  · rw [if_pos halign]
    exact .misaligned halign
  rw [if_neg halign]
  rw [ne_eq, Decidable.not_not] at halign
  have hmod := (mod_eight_iff address).1 halign
  by_cases htest : (address - base < 0 || Int64.ofNat s.size < address - base + 8) = true
  · rw [if_pos htest]
    simp only [Bool.or_eq_true, decide_eq_true_eq, Int64.lt_iff_toInt_lt, hstack,
      Int64.toInt_zero] at htest
    refine .outside halign (fun heq => ?_) fun i hi => ?_
    · have hlast := hblind.1 heq
      omega
    · have hplace : address.toInt = 0x7fff0000 + i := hi.place
      have hwithin := hi.within
      omega
  rw [if_neg htest]
  simp only [Bool.or_eq_true, decide_eq_true_eq, Int64.lt_iff_toInt_lt, hstack,
    Int64.toInt_zero] at htest
  by_cases hpast : s.size < (address - base).toInt.toNat
  · -- the sum has wrapped around, which only the last offset makes it do
    have hlast : (address - base).toInt = 2 ^ 63 - 8 := by omega
    have hword : address - base = lastOffset := Int64.toInt_inj.1 hlast
    rw [if_pos hpast, hword]
    exact .blind (hblind.2 hlast)
  · rw [if_neg hpast]
    refine .inside halign ⟨?_, by omega⟩
    change address.toInt = 0x7fff0000 + ((address - base).toInt.toNat : Int)
    omega

/-- A load fails as the search does. -/
theorem load_eq (s : Stack) (address : Word) :
    s.load address = (s.locate address).map fun i => (readBytes s.bytes 8 i).toInt64 := by
  rw [load]
  cases s.locate address with
  | error t => rfl
  | ok i => rfl

theorem store_eq (s : Stack) (address value : Word) :
    s.store address value =
      (s.locate address).map fun i => ⟨writeBytes 8 s.bytes i value.toUInt64⟩ := by
  rw [store]
  cases s.locate address with
  | error t => rfl
  | ok i => rfl

/-- Whatever the size of the stack, the search has two faults and one way to crash. -/
theorem locate_error_cases {s : Stack} {address : Word} {t : Trap}
    (h : s.locate address = .error t) :
    t = .fault (.misaligned address) ∨ t = .fault (.outsideStack address) ∨
      t = .crash (.pastEnd (address - base) s.size) := by
  rw [locate] at h
  split at h
  · cases h
    exact .inl rfl
  · split at h
    · cases h
      exact .inr (.inl rfl)
    · split at h
      · cases h
        exact .inr (.inr rfl)
      · cases h

/-- A load and a store at the address touch eight bytes of the stack, and no others, or they
are refused. -/
inductive Checked (s : Stack) (address value : Word) : Prop where
  | inside {i : Nat} {s' : Stack} : s.Spans address i →
      s.load address = .ok (readBytes s.bytes 8 i).toInt64 → s.store address value = .ok s' →
      s'.size = s.size → readBytes s'.bytes 8 i = value.toUInt64 →
      (∀ k, k < i ∨ i + 8 ≤ k → s'.bytes.get! k = s.bytes.get! k) → Checked s address value
  | refused {f : Fault} : (f = .misaligned address ∧ address % 8 ≠ 0 ∨
        f = .outsideStack address ∧ ∀ i, ¬ s.Spans address i) →
      s.load address = .error (.fault f) → s.store address value = .error (.fault f) →
      Checked s address value

/-- Every address but one is checked. -/
theorem checked_iff {s : Stack} (hsize : s.size < 2 ^ 62) (address value : Word) :
    s.Checked address value ↔ address ≠ blindSpot := by
  have hload := load_eq s address
  have hstore := store_eq s address value
  have hlocates := locates hsize address
  generalize s.locate address = found at hload hstore hlocates
  cases hlocates with
  | @inside i halign hspans =>
    refine ⟨fun _ heq => ?_, fun _ => ?_⟩
    · have hlast := (eq_blindSpot_iff address).1 heq
      have hoffset := toInt_sub_base address
      have hplace : address.toInt = 0x7fff0000 + i := hspans.place
      have hwithin := hspans.within
      omega
    · exact .inside hspans hload hstore (size_writeBytes 8 _ _ _)
        (readBytes_writeBytes_self hspans.within _) fun k hk => get!_writeBytes hk _ _
  | misaligned halign =>
    refine ⟨?_, fun _ => .refused (.inl ⟨rfl, halign⟩) hload hstore⟩
    rintro - rfl
    exact absurd (by decide) halign
  | outside _ hne hspans =>
    exact ⟨fun _ => hne, fun _ => .refused (.inr ⟨rfl, hspans⟩) hload hstore⟩
  | blind heq =>
    refine ⟨fun hchecked _ => ?_, fun hne => absurd heq hne⟩
    cases hchecked with
    | inside _ hload' _ _ _ _ => cases hload.symm.trans hload'
    | refused _ hload' _ => cases hload.symm.trans hload'

/-- At that one the machine breaks down. -/
theorem locate_blindSpot {s : Stack} (hsize : s.size < 2 ^ 62) :
    s.locate blindSpot = .error (.crash (.pastEnd lastOffset s.size)) := by
  have hlocates := locates hsize blindSpot
  generalize s.locate blindSpot = found at hlocates ⊢
  cases hlocates with
  | blind _ => rfl
  | outside _ hne _ => exact absurd rfl hne
  | misaligned halign => exact absurd (by decide) halign
  | inside _ hspans =>
    have hplace : blindSpot.toInt = base.toInt + _ := hspans.place
    have hblind : blindSpot.toInt < 0 := by decide
    have hbase : base.toInt = 0x7fff0000 := rfl
    omega

theorem load_blindSpot {s : Stack} (hsize : s.size < 2 ^ 62) :
    s.load blindSpot = .error (.crash (.pastEnd lastOffset s.size)) := by
  rw [load_eq, locate_blindSpot hsize]
  rfl

theorem store_blindSpot {s : Stack} (hsize : s.size < 2 ^ 62) (value : Word) :
    s.store blindSpot value = .error (.crash (.pastEnd lastOffset s.size)) := by
  rw [store_eq, locate_blindSpot hsize]
  rfl

/-- No stack comes near half the addresses. -/
theorem size_lt_of_le {s : Stack} (h : (s.size : Int) ≤ sizeLimit) : s.size < 2 ^ 62 := by
  have hlimit : sizeLimit = 281474976710656 := rfl
  omega

end Stack
end Machine
end WordC
