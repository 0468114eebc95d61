import Mathlib.Logic.Function.Basic
import WordC.Proofs.Machine.Access
import WordC.Proofs.Machine.Execute
/-!
The stack as a memory of words.

The bytes of two addresses that can be accessed overlap only if the addresses are the same, so
a store changes the word at its own address and no other.  `Stack.words` forgets the bytes
and keeps what loads give.  Whatever loads and stores succeed on the machine, a memory of
words answers them in the same way and is left with the same words; after a reset it is the
memory that holds zero everywhere.
-/

namespace WordC
namespace Machine

/-! ## Accesses of the machine and of a memory of words -/

/-- The addresses of words. -/
abbrev Slot := { address : Word // address % 8 = 0 }

abbrev Memory := Slot → Word

inductive Access where
  | load (address : Word)
  | store (address value : Word)
deriving Repr, DecidableEq

namespace Access

def address : Access → Word
  | load address => address
  | store address _ => address

/-- Performs the access, and gives the word that it loads. -/
def perform : Access → Exec (Option Word)
  | load address => return some (← Machine.load address)
  | store address value => do
    Machine.store address value
    return none

/-- Performs the accesses one after the other. -/
def performAll : List Access → Exec (List (Option Word))
  | [] => return []
  | x :: rest => return (← x.perform) :: (← performAll rest)

end Access

namespace Memory

def zero : Memory := fun _ => 0

/-- What an access gives and leaves.  There are no words at other addresses than theirs. -/
def perform (m : Memory) : Access → Option (Option Word × Memory)
  | .load address => if h : address % 8 = 0 then some (some (m ⟨address, h⟩), m) else none
  | .store address value =>
    if h : address % 8 = 0 then some (none, Function.update m ⟨address, h⟩ value) else none

def performAll : Memory → List Access → Option (List (Option Word) × Memory)
  | m, [] => some ([], m)
  | m, x :: rest => do
    let (w, m') ← m.perform x
    let (ws, m'') ← performAll m' rest
    return (w :: ws, m'')

end Memory

namespace Stack

/-! ## Where the words lie -/

/-- A stack that can be asked for keeps to the limit. -/
theorem size_le_of_ofSize? {n : Word} {s : Stack} (h : ofSize? n = some s) :
    (s.size : Int) ≤ sizeLimit := by
  unfold ofSize? at h
  dsimp only at h
  split at h
  · cases h
  · next htest =>
    rw [Bool.or_eq_true, decide_eq_true_eq, decide_eq_true_eq, not_or] at htest
    rw [← Option.some.inj h, size_zeros]
    omega

/-- The search for an address reads the size of the stack and not its bytes. -/
theorem locate_congr {s s' : Stack} (h : s'.size = s.size) (address : Word) :
    s'.locate address = s.locate address := by
  rw [locate, locate, h]

theorem toInt_offset_mod {address : Word} (h : address % 8 = 0) :
    (address - base).toInt % 8 = 0 := by
  have hmod := (mod_eight_iff address).1 h
  have hoffset := toInt_sub_base address
  omega

/-- What is found are eight bytes of the stack, at the offset of the address. -/
theorem locate_ok {s : Stack} (hsize : s.size < 2 ^ 63 - 8) {address : Word} {i : Nat}
    (h : s.locate address = .ok i) :
    address % 8 = 0 ∧ (address - base).toInt = i ∧ i + 8 ≤ s.size := by
  have hnext := toInt_add_eight (address - base)
  have hstack : (Int64.ofNat s.size).toInt = s.size := Int64.toInt_ofNat_of_lt (by omega)
  rw [locate] at h
  split at h
  · cases h
  · next halign =>
    rw [ne_eq, Decidable.not_not] at halign
    split at h
    · cases h
    · next htest =>
      simp only [Bool.or_eq_true, decide_eq_true_eq, Int64.lt_iff_toInt_lt, hstack,
        Int64.toInt_zero] at htest
      split at h
      · cases h
      · next hpast =>
        cases h
        exact ⟨halign, by omega, by omega⟩

/-- The words of different addresses do not overlap. -/
theorem locate_disjoint {s : Stack} (hsize : s.size < 2 ^ 63 - 8) {a b : Word} {i j : Nat}
    (hne : b ≠ a) (ha : s.locate a = .ok i) (hb : s.locate b = .ok j) :
    i + 8 ≤ j ∨ j + 8 ≤ i := by
  obtain ⟨halign, hi, -⟩ := locate_ok hsize ha
  obtain ⟨halign', hj, -⟩ := locate_ok hsize hb
  have hmod := toInt_offset_mod halign
  have hmod' := toInt_offset_mod halign'
  have hoffset : (b - base).toInt ≠ (a - base).toInt := by
    intro heq
    have hsub : b - base = a - base := Int64.toInt_inj.1 heq
    rw [← Int64.sub_add_cancel b base, hsub, Int64.sub_add_cancel] at hne
    exact hne rfl
  omega

/-! ## A store and the loads after it -/

section Store

variable {s s' : Stack} {a v : Word}

theorem exists_of_store (h : s.store a v = .ok s') :
    ∃ i, s.locate a = .ok i ∧ s' = ⟨writeBytes 8 s.bytes i v.toUInt64⟩ := by
  rw [store_eq] at h
  cases hfound : s.locate a with
  | error t =>
    rw [hfound] at h
    cases h
  | ok i =>
    rw [hfound] at h
    exact ⟨i, rfl, (Except.ok.inj h).symm⟩

theorem size_store (h : s.store a v = .ok s') : s'.size = s.size := by
  obtain ⟨i, -, rfl⟩ := exists_of_store h
  exact size_writeBytes 8 _ _ _

theorem load_store_self (hsize : s.size < 2 ^ 63 - 8) (h : s.store a v = .ok s') :
    s'.load a = .ok v := by
  have hlocate := locate_congr (size_store h) a
  obtain ⟨i, hfound, rfl⟩ := exists_of_store h
  have hroom := (locate_ok hsize hfound).2.2
  rw [load_eq, hlocate, hfound]
  dsimp only [Except.map]
  rw [readBytes_writeBytes_self hroom, Int64.toInt64_toUInt64]

theorem load_store_ne (hsize : s.size < 2 ^ 63 - 8) (h : s.store a v = .ok s') {b : Word}
    (hne : b ≠ a) : s'.load b = s.load b := by
  have hlocate := locate_congr (size_store h) b
  obtain ⟨i, hfound, rfl⟩ := exists_of_store h
  rw [load_eq, load_eq, hlocate]
  cases hother : s.locate b with
  | error t => simp only [Except.map]
  | ok j =>
    have hdisjoint := locate_disjoint hsize hne hfound hother
    simp only [Except.map, readBytes_writeBytes_disjoint hdisjoint]

/-- Whether there is a word at an address depends on the size of the stack alone. -/
theorem load_ok_iff : (∃ w, s.load a = .ok w) ↔ ∃ i, s.locate a = .ok i := by
  rw [load_eq]
  cases s.locate a with
  | error t => simp [Except.map]
  | ok i => simp [Except.map]

theorem store_ok_iff : (∃ s', s.store a v = .ok s') ↔ ∃ i, s.locate a = .ok i := by
  rw [store_eq]
  cases s.locate a with
  | error t => simp [Except.map]
  | ok i => simp [Except.map]

end Store

/-! ## The words of a stack -/

/-- What loads give, and zero where they fail. -/
def words (s : Stack) : Memory := fun slot =>
  match s.load slot with
  | .ok w => w
  | .error _ => 0

theorem words_of_load {s : Stack} (slot : Slot) {w : Word} (h : s.load slot = .ok w) :
    s.words slot = w := by
  rw [words, h]

theorem words_zeros (n : Nat) : (zeros n).words = Memory.zero := by
  funext slot
  rw [words, load_eq]
  cases (zeros n).locate slot with
  | error t => rfl
  | ok i =>
    change (readBytes _ 8 i).toInt64 = 0
    rw [readBytes_zeros]
    rfl

section Words

variable {s s' : Stack} {a : Word} (hsize : s.size < 2 ^ 63 - 8)

include hsize

theorem aligned_of_load {w : Word} (h : s.load a = .ok w) : a % 8 = 0 := by
  rw [load_eq] at h
  cases hfound : s.locate a with
  | error t =>
    rw [hfound] at h
    cases h
  | ok i => exact (locate_ok hsize hfound).1

theorem words_store {v : Word} (h : s.store a v = .ok s') (halign : a % 8 = 0) :
    s'.words = Function.update s.words ⟨a, halign⟩ v := by
  funext slot
  by_cases hslot : slot = ⟨a, halign⟩
  · subst hslot
    rw [Function.update_self]
    exact words_of_load _ (load_store_self hsize h)
  · have hne : slot.1 ≠ a := fun heq => hslot (Subtype.ext heq)
    rw [Function.update_of_ne hslot, words, words, load_store_ne hsize h hne]

end Words

end Stack

/-! ## Runs of accesses -/

section Runs

variable {s s' : State}

theorem load_inv {a w : Word} (h : load a s = .ok w s') :
    s.stack.load a = .ok w ∧ s' = s := by
  have hlift : load a s = lift (s.stack.load a) s := rfl
  rw [hlift] at h
  cases hload : s.stack.load a with
  | error t =>
    rw [hload] at h
    cases h
  | ok w' =>
    rw [hload] at h
    cases h
    exact ⟨rfl, rfl⟩

theorem store_inv {a v : Word} (h : store a v s = .ok () s') :
    s.stack.store a v = .ok s'.stack ∧ s' = { s with stack := s'.stack } := by
  cases hstore : s.stack.store a v with
  | error t =>
    have hfails : store a v s = .error t s := by
      refine (bind_of_ok rfl).trans ?_
      simp only [hstore]
      rfl
    cases h.symm.trans hfails
  | ok stack =>
    cases h.symm.trans (store_of_ok hstore)
    exact ⟨rfl, rfl⟩

/-- What one access does to the machine, it does to the words of its stack. -/
theorem perform_words (hsize : s.stack.size < 2 ^ 63 - 8) {x : Access} {w : Option Word}
    (h : x.perform s = .ok w s') :
    s.stack.words.perform x = some (w, s'.stack.words) ∧ s' = { s with stack := s'.stack } ∧
      s'.stack.size = s.stack.size := by
  cases x with
  | load a =>
    obtain ⟨v, d, hrun, h⟩ := bind_ok h
    cases h
    obtain ⟨hload, rfl⟩ := load_inv hrun
    have halign := Stack.aligned_of_load hsize hload
    refine ⟨?_, rfl, rfl⟩
    rw [Memory.perform, dif_pos halign, Stack.words_of_load ⟨a, halign⟩ hload]
  | store a v =>
    obtain ⟨u, d, hrun, h⟩ := bind_ok h
    cases h
    obtain ⟨hstore, hstate⟩ := store_inv hrun
    have halign := Stack.aligned_of_load (Stack.size_store hstore ▸ hsize)
      (Stack.load_store_self hsize hstore)
    refine ⟨?_, hstate, Stack.size_store hstore⟩
    rw [Memory.perform, dif_pos halign, Stack.words_store hsize hstore halign]

theorem performAll_words {xs : List Access} {ws : List (Option Word)}
    (hsize : s.stack.size < 2 ^ 63 - 8) (h : Access.performAll xs s = .ok ws s') :
    s.stack.words.performAll xs = some (ws, s'.stack.words) ∧
      s' = { s with stack := s'.stack } := by
  induction xs generalizing s ws with
  | nil =>
    cases h
    exact ⟨rfl, rfl⟩
  | cons x xs ih =>
    obtain ⟨w, d, hfirst, h⟩ := bind_ok h
    obtain ⟨ws', e, hothers, h⟩ := bind_ok h
    cases h
    obtain ⟨hword, hstate, hkeeps⟩ := perform_words hsize hfirst
    obtain ⟨hwords, hstate'⟩ := ih (hkeeps ▸ hsize) hothers
    refine ⟨?_, ?_⟩
    · rw [Memory.performAll, hword]
      change (do let (ws, m) ← d.stack.words.performAll xs; some (w :: ws, m)) = _
      rw [hwords]
      rfl
    · rw [hstate', hstate]

theorem perform_succeeds_iff (x : Access) :
    (∃ w s', x.perform s = .ok w s') ↔ ∃ w, s.stack.load x.address = .ok w := by
  cases x with
  | load a =>
    constructor
    · rintro ⟨w, s', h⟩
      obtain ⟨v, d, hrun, -⟩ := bind_ok h
      exact ⟨v, (load_inv hrun).1⟩
    · rintro ⟨w, hload⟩
      exact ⟨some w, s, bind_of_ok (load_of_ok hload)⟩
  | store a v =>
    rw [Stack.load_ok_iff, ← Stack.store_ok_iff (v := v)]
    constructor
    · rintro ⟨w, s', h⟩
      obtain ⟨u, d, hrun, -⟩ := bind_ok h
      exact ⟨d.stack, (store_inv hrun).1⟩
    · rintro ⟨stack, hstore⟩
      exact ⟨none, { s with stack := stack }, bind_of_ok (store_of_ok hstore)⟩

/-- Accesses succeed together if each of them can be made at the start. -/
theorem performAll_succeeds_iff (xs : List Access) (hsize : s.stack.size < 2 ^ 63 - 8) :
    (∃ ws s', Access.performAll xs s = .ok ws s') ↔
      ∀ x ∈ xs, ∃ w, s.stack.load x.address = .ok w := by
  induction xs generalizing s with
  | nil => exact ⟨fun _ => List.forall_mem_nil _, fun _ => ⟨[], s, rfl⟩⟩
  | cons x xs ih =>
    rw [List.forall_mem_cons, ← perform_succeeds_iff]
    cases hfirst : x.perform s with
    | error t d =>
      have hfails : Access.performAll (x :: xs) s = .error t d := bind_of_error hfirst
      simp [hfails]
    | ok w d =>
      obtain ⟨-, -, hkeeps⟩ := perform_words hsize hfirst
      have hsame : ∀ a, (∃ w, d.stack.load a = .ok w) ↔ ∃ w, s.stack.load a = .ok w := by
        intro a
        rw [Stack.load_ok_iff, Stack.load_ok_iff, Stack.locate_congr hkeeps]
      have hothers := ih (hkeeps ▸ hsize)
      simp only [hsame] at hothers
      rw [← hothers]
      constructor
      · rintro ⟨ws, s', h⟩
        obtain ⟨ws', e, hrest, -⟩ := bind_ok ((bind_of_ok hfirst).symm.trans h)
        exact ⟨⟨w, d, rfl⟩, ws', e, hrest⟩
      · rintro ⟨-, ws, s', hrest⟩
        exact ⟨w :: ws, s', (bind_of_ok hfirst).trans (bind_of_ok hrest)⟩

end Runs

/-- The bytes of the stack behave as a memory of words, as long as the stack is short of the
last word that an offset can reach, and so is every stack that can be asked for.  A word that
was stored is loaded back, every other load gives what it gave before, and the size is kept.
Accesses that succeed give what a memory of words gives and leave the words that it leaves,
and nothing but the stack has changed; they succeed if there is a word at each of their
addresses.  After a reset the memory is zero. -/
theorem stack_refines_words {s : State} (hsize : s.stack.size < 2 ^ 63 - 8) :
    (∀ a v stack, s.stack.store a v = .ok stack →
      stack.load a = .ok v ∧ (∀ b, b ≠ a → stack.load b = s.stack.load b) ∧
        stack.size = s.stack.size) ∧
    (∀ xs ws s', Access.performAll xs s = .ok ws s' →
      s.stack.words.performAll xs = some (ws, s'.stack.words) ∧
        s' = { s with stack := s'.stack }) ∧
    (∀ xs, (∃ ws s', Access.performAll xs s = .ok ws s') ↔
      ∀ x ∈ xs, ∃ w, s.stack.load x.address = .ok w) ∧
    (∀ pc xs ws s', Access.performAll xs (s.reset pc) = .ok ws s' →
      Memory.zero.performAll xs = some (ws, s'.stack.words)) ∧
    ∀ n stack, Stack.ofSize? n = some stack → stack.size < 2 ^ 63 - 8 := by
  refine ⟨fun a v stack h => ?_, fun xs ws s' h => performAll_words hsize h,
    fun xs => performAll_succeeds_iff xs hsize, fun pc xs ws s' h => ?_, fun n stack h => ?_⟩
  · exact ⟨Stack.load_store_self hsize h, fun b hne => Stack.load_store_ne hsize h hne,
      Stack.size_store h⟩
  · have hreset : (s.reset pc).stack.size < 2 ^ 63 - 8 := by
      rwa [show (s.reset pc).stack = .zeros s.stack.size from rfl, Stack.size_zeros]
    have hwords := (performAll_words hreset h).1
    rwa [show (s.reset pc).stack = .zeros s.stack.size from rfl, Stack.words_zeros] at hwords
  · have hlt := Stack.size_lt_of_le (Stack.size_le_of_ofSize? h)
    omega

/-- A machine with three words on its stack, all of them minus one. -/
def filled : State := .fresh ⟨⟨Array.replicate 24 255⟩⟩

/-- The second word and then the first are stored, and all three are loaded. -/
def neighbours : List Access :=
  [.store (Stack.base + 8) Int64.minValue, .store Stack.base (-2), .load (Stack.base + 8),
    .load Stack.base, .load (Stack.base + 16)]

theorem filled_neighbours_words :
    (∃ s', Access.performAll neighbours filled =
        .ok [none, none, some Int64.minValue, some (-2), some (-1)] s' ∧
      filled.stack.words.performAll neighbours =
        some ([none, none, some Int64.minValue, some (-2), some (-1)], s'.stack.words)) ∧
    ∃ s', Access.performAll neighbours (filled.reset 0) =
        .ok [none, none, some Int64.minValue, some (-2), some 0] s' ∧
      Memory.zero.performAll neighbours =
        some ([none, none, some Int64.minValue, some (-2), some 0], s'.stack.words) := by
  have hsize : filled.stack.size < 2 ^ 63 - 8 := by decide
  obtain ⟨-, hrun, -, hreset, -⟩ := stack_refines_words hsize
  refine ⟨⟨_, rfl, ?_⟩, _, rfl, ?_⟩
  · exact (hrun neighbours _ _ rfl).1
  · exact hreset 0 neighbours _ _ rfl

end Machine
end WordC
