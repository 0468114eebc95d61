import Mathlib.Algebra.Group.Int.Defs
import Mathlib.Algebra.Group.Nat.Defs
import WordC.Machine.Stack
/-!
The stack as words counted from its top.

The word `j` lies `8 * j` bytes below the top, so word zero is the first one past
the stack.  A stack that holds a whole number of words has word `j` exactly when
`0 < j` and `8 * j` is at most its size.  Everything below goes through `word`,
and the bytes are not opened again.
-/

namespace WordC
namespace Machine
namespace Stack

/-! ## Bytes -/

theorem get!_set!_self {bytes : ByteArray} {i : Nat} (h : i < bytes.size) (b : UInt8) :
    (bytes.set! i b).get! i = b := by
  simp only [ByteArray.get!, ByteArray.set!, Array.getElem!_eq_getD, Array.getD_eq_getD_getElem?,
    Array.set!_eq_setIfInBounds, Array.getElem?_setIfInBounds]
  have h' : i < bytes.data.size := h
  rw [if_pos trivial, if_pos h']
  rfl

theorem get!_set!_ne {bytes : ByteArray} {i k : Nat} (h : i ≠ k) (b : UInt8) :
    (bytes.set! i b).get! k = bytes.get! k := by
  simp [ByteArray.get!, ByteArray.set!, Array.getElem!_eq_getD, Array.getD_eq_getD_getElem?, h]

theorem size_writeBytes (n : Nat) (bytes : ByteArray) (i : Nat) (v : UInt64) :
    (writeBytes n bytes i v).size = bytes.size := by
  induction n generalizing bytes i v with
  | zero => rfl
  | succ n ih => rw [writeBytes, ih, ByteArray.size_set!]

/-- A write leaves the bytes outside its range alone. -/
theorem get!_writeBytes {n i k : Nat} (h : k < i ∨ i + n ≤ k) (bytes : ByteArray) (v : UInt64) :
    (writeBytes n bytes i v).get! k = bytes.get! k := by
  induction n generalizing bytes i v with
  | zero => rfl
  | succ n ih =>
    rw [writeBytes, ih (by omega), get!_set!_ne (by omega)]

theorem readBytes_congr {bytes bytes' : ByteArray} {n i : Nat}
    (h : ∀ k, i ≤ k → k < i + n → bytes.get! k = bytes'.get! k) :
    readBytes bytes n i = readBytes bytes' n i := by
  induction n generalizing i with
  | zero => rfl
  | succ n ih =>
    rw [readBytes, readBytes, h i (by omega) (by omega),
      ih fun k hk hk' => h k (by omega) (by omega)]

/-- Reading what was written gives its low bytes. -/
theorem toNat_readBytes_writeBytes {n i : Nat} {bytes : ByteArray} (hn : n ≤ 8)
    (h : i + n ≤ bytes.size) (v : UInt64) :
    (readBytes (writeBytes n bytes i v) n i).toNat = v.toNat % 256 ^ n := by
  induction n generalizing bytes i v with
  | zero => simp [readBytes, Nat.mod_one]
  | succ n ih =>
    have hfirst : (writeBytes n (bytes.set! i v.toUInt8) (i + 1) (v >>> 8)).get! i = v.toUInt8 := by
      rw [get!_writeBytes (by omega), get!_set!_self (by omega)]
    have hroom : i + 1 + n ≤ (bytes.set! i v.toUInt8).size := by
      rw [ByteArray.size_set!]
      omega
    have hrest := ih (Nat.le_of_succ_le hn) hroom (v >>> 8)
    have hpow : (256 : Nat) ^ n ≤ 256 ^ 7 := Nat.pow_le_pow_right (by omega) (by omega)
    have hlt : v.toNat >>> 8 % 256 ^ n < 256 ^ 7 :=
      Nat.lt_of_lt_of_le (Nat.mod_lt _ (Nat.pow_pos (by omega))) hpow
    have hbyte : v.toNat % 256 < 2 ^ 8 := Nat.mod_lt _ (by omega)
    rw [writeBytes, readBytes, hfirst, UInt64.toNat_or, UInt64.toNat_shiftLeft, hrest,
      UInt8.toNat_toUInt64, UInt64.toNat_toUInt8, UInt64.toNat_shiftRight]
    change v.toNat % 256 ||| (v.toNat >>> 8 % 256 ^ n) <<< 8 % 2 ^ 64 = v.toNat % 256 ^ (n + 1)
    have hfits : (v.toNat >>> 8 % 256 ^ n) <<< 8 < 2 ^ 64 := by
      rw [Nat.shiftLeft_eq]
      omega
    have hsplit : v.toNat % 256 ^ (n + 1) = v.toNat % 256 + 256 * (v.toNat / 256 % 256 ^ n) := by
      rw [Nat.pow_succ', Nat.mod_mul]
    rw [Nat.mod_eq_of_lt hfits, Nat.or_comm, ← Nat.shiftLeft_add_eq_or_of_lt hbyte,
      Nat.shiftLeft_eq, Nat.shiftRight_eq_div_pow, hsplit, Nat.add_comm, Nat.mul_comm]

theorem readBytes_writeBytes_self {i : Nat} {bytes : ByteArray} (h : i + 8 ≤ bytes.size) (v : UInt64) :
    readBytes (writeBytes 8 bytes i v) 8 i = v := by
  rw [← UInt64.toNat_inj, toNat_readBytes_writeBytes (Nat.le_refl 8) h]
  exact Nat.mod_eq_of_lt v.toNat_lt

theorem readBytes_writeBytes_disjoint {i k : Nat} (h : i + 8 ≤ k ∨ k + 8 ≤ i) (bytes : ByteArray)
    (v : UInt64) : readBytes (writeBytes 8 bytes i v) 8 k = readBytes bytes 8 k :=
  readBytes_congr fun _ _ _ => get!_writeBytes (by omega) bytes v

theorem readBytes_zeros (n k i : Nat) : readBytes (zeros n).bytes k i = 0 := by
  induction k generalizing i with
  | zero => rfl
  | succ k ih =>
    have hbyte : (zeros n).bytes.get! i = 0 := by
      simp only [zeros, ByteArray.get!, Array.getElem!_eq_getD, Array.getD_eq_getD_getElem?,
        Array.getElem?_replicate]
      split <;> rfl
    rw [readBytes, ih, hbyte]
    rfl

/-! ## Addresses -/

/-- The address `8 * j` bytes below the top of a stack of the given size. -/
def below (size j : Nat) : Word := base + Int64.ofNat size - Int64.ofNat (8 * j)

theorem below_zero (s : Stack) : below s.size 0 = s.top := by
  simp [below, top]

theorem below_eq_ofInt (size j : Nat) :
    below size j = Int64.ofInt (0x7fff0000 + size - (8 * j : Nat)) := by
  rw [Int64.ofInt_sub, Int64.ofInt_add, Int64.ofInt_eq_ofNat, Int64.ofInt_eq_ofNat]
  rfl

theorem toInt_below {size j : Nat} (hsize : size < 2 ^ 62) (hj : 8 * j < 2 ^ 63) :
    (below size j).toInt = 0x7fff0000 + size - (8 * j : Nat) := by
  rw [below_eq_ofInt]
  exact Int64.toInt_ofInt_of_le (by omega) (by omega)

theorem below_sub (size j k : Nat) :
    below size j - Int64.ofNat (8 * k) = below size (j + k) := by
  rw [below_eq_ofInt, below_eq_ofInt, ← Int64.ofInt_eq_ofNat, ← Int64.ofInt_sub]
  congr 1
  omega

theorem below_add (size j k : Nat) :
    below size (j + k) + Int64.ofNat (8 * k) = below size j := by
  rw [below_eq_ofInt, below_eq_ofInt, ← Int64.ofInt_eq_ofNat, ← Int64.ofInt_add]
  congr 1
  omega

/-- Whether the stack has the word `j`. -/
def Has (s : Stack) (j : Nat) : Prop := 0 < j ∧ 8 * j ≤ s.size

instance (s : Stack) (j : Nat) : Decidable (s.Has j) := inferInstanceAs (Decidable (_ ∧ _))

/-- The word `j` counted down from the top, zero where there is none. -/
def word (s : Stack) (j : Nat) : Word :=
  if s.Has j then (readBytes s.bytes 8 (s.size - 8 * j)).toInt64 else 0

/-- The stack with another word `j`. -/
def put (s : Stack) (j : Nat) (v : Word) : Stack :=
  ⟨writeBytes 8 s.bytes (s.size - 8 * j) v.toUInt64⟩

theorem size_put (s : Stack) (j : Nat) (v : Word) : (s.put j v).size = s.size :=
  size_writeBytes 8 _ _ _

theorem word_put_self {s : Stack} {j : Nat} (h : s.Has j) (v : Word) : (s.put j v).word j = v := by
  have hroom : s.size - 8 * j + 8 ≤ s.bytes.size := by
    have := h.2
    have := h.1
    change s.size - 8 * j + 8 ≤ s.size
    omega
  have hhas : (s.put j v).Has j := ⟨h.1, by rw [size_put]; exact h.2⟩
  rw [word, if_pos hhas, size_put, put, readBytes_writeBytes_self hroom, Int64.toInt64_toUInt64]

theorem word_put_ne {s : Stack} {j k : Nat} (h : s.Has j) (hne : k ≠ j) (v : Word) :
    (s.put j v).word k = s.word k := by
  by_cases hk : s.Has k
  · have hhas : (s.put j v).Has k := ⟨hk.1, by rw [size_put]; exact hk.2⟩
    have hdisjoint : s.size - 8 * j + 8 ≤ s.size - 8 * k ∨ s.size - 8 * k + 8 ≤ s.size - 8 * j := by
      have := h.2
      have := hk.2
      omega
    rw [word, word, if_pos hhas, if_pos hk, size_put, put,
      readBytes_writeBytes_disjoint hdisjoint]
  · have hhas : ¬ (s.put j v).Has k := by rwa [Has, size_put]
    rw [word, word, if_neg hhas, if_neg hk]

theorem word_zeros (n j : Nat) : (zeros n).word j = 0 := by
  rw [word]
  split
  · rw [readBytes_zeros]
    rfl
  · rfl

theorem size_zeros (n : Nat) : (zeros n).size = n := Array.size_replicate

section Access

variable {s : Stack} {j : Nat}

theorem below_mod_eight {size : Nat} (hmod : size % 8 = 0) (hsize : size < 2 ^ 62)
    (hj : 8 * j < 2 ^ 63) : below size j % 8 = 0 := by
  have height : (8 : Int64).toInt = 8 := rfl
  have hdvd : (8 : Int) ∣ 0x7fff0000 + size - (8 * j : Nat) := by omega
  rw [← Int64.toInt_inj, Int64.toInt_mod, toInt_below hsize hj, height,
    Int.tmod_eq_zero_of_dvd hdvd]
  rfl

theorem offset_eq_ofInt (size j : Nat) :
    below size j - base = Int64.ofInt (size - (8 * j : Nat)) := by
  have hbase : base = Int64.ofInt 0x7fff0000 := rfl
  rw [below_eq_ofInt, hbase, ← Int64.ofInt_sub]
  congr 1
  omega

theorem toInt_offset {size : Nat} (hsize : size < 2 ^ 62) (hj : 8 * j < 2 ^ 63) :
    (below size j - base).toInt = size - (8 * j : Nat) := by
  rw [offset_eq_ofInt]
  exact Int64.toInt_ofInt_of_le (by omega) (by omega)

/-- A word of the stack lies at its address. -/
theorem locate_below (hmod : s.size % 8 = 0) (hsize : s.size < 2 ^ 62) (h : s.Has j) :
    s.locate (below s.size j) = .ok (s.size - 8 * j) := by
  obtain ⟨hj, hroom⟩ := h
  have hint := toInt_offset hsize (j := j) (by omega)
  have hnext : (below s.size j - base + 8).toInt = s.size - (8 * j : Nat) + 8 := by
    have height : (8 : Int64) = Int64.ofInt 8 := rfl
    rw [offset_eq_ofInt, height, ← Int64.ofInt_add]
    exact Int64.toInt_ofInt_of_le (by omega) (by omega)
  have hlow : ¬ below s.size j - base < 0 := by
    rw [Int64.lt_iff_toInt_lt, hint]
    change ¬ (_ : Int) < 0
    omega
  have hhigh : ¬ Int64.ofNat s.size < below s.size j - base + 8 := by
    rw [Int64.lt_iff_toInt_lt, hnext, Int64.toInt_ofNat_of_lt (by omega)]
    omega
  have hnat : (below s.size j - base).toInt.toNat = s.size - 8 * j := by omega
  have hpast : ¬ s.size < s.size - 8 * j := by omega
  simp only [locate, below_mod_eight hmod hsize (j := j) (by omega), ne_eq, not_true_eq_false,
    if_false, Bool.or_eq_true, decide_eq_true_eq, hlow, hhigh, or_self, hnat, hpast]

/-- There is no word past the lower end of the stack. -/
theorem locate_below_outside (hmod : s.size % 8 = 0) (hsize : s.size < 2 ^ 62)
    (hj : 8 * j < 2 ^ 63) (hroom : s.size < 8 * j) :
    s.locate (below s.size j) = .error (.fault (.outsideStack (below s.size j))) := by
  have hlow : below s.size j - base < 0 := by
    rw [Int64.lt_iff_toInt_lt, toInt_offset hsize hj]
    change (_ : Int) < 0
    omega
  simp [locate, below_mod_eight hmod hsize hj, hlow]

theorem load_below (hmod : s.size % 8 = 0) (hsize : s.size < 2 ^ 62) (h : s.Has j) :
    s.load (below s.size j) = .ok (s.word j) := by
  rw [load, locate_below hmod hsize h, word, if_pos h]

theorem store_below (hmod : s.size % 8 = 0) (hsize : s.size < 2 ^ 62) (h : s.Has j) (v : Word) :
    s.store (below s.size j) v = .ok (s.put j v) := by
  rw [store, locate_below hmod hsize h]
  rfl

theorem load_below_outside (hmod : s.size % 8 = 0) (hsize : s.size < 2 ^ 62)
    (hj : 8 * j < 2 ^ 63) (hroom : s.size < 8 * j) :
    s.load (below s.size j) = .error (.fault (.outsideStack (below s.size j))) := by
  rw [load, locate_below_outside hmod hsize hj hroom]

theorem store_below_outside (hmod : s.size % 8 = 0) (hsize : s.size < 2 ^ 62)
    (hj : 8 * j < 2 ^ 63) (hroom : s.size < 8 * j) (v : Word) :
    s.store (below s.size j) v = .error (.fault (.outsideStack (below s.size j))) := by
  rw [store, locate_below_outside hmod hsize hj hroom]

end Access

end Stack
end Machine
end WordC
