import Mathlib.Data.List.Perm.Subperm
import WordC.Proofs.Codegen.Generate
import WordC.Proofs.Grammar.Completeness
/-!
The size of a frame.

Every name in a tree is a token, so a program has no more names than its source has
bytes.  That bounds the frame, and below the bound its size does not wrap: it is the
bytes of its slots, rounded up to a multiple of sixteen.  Where rounding up leaves the
words, the size is not positive.
-/

namespace WordC
namespace Grammar

open WordC.Parser Node

theorem idents_leftward (first : Node) (steps : List (Operator × Node)) :
    (leftward first steps).idents = first.idents ++ steps.flatMap fun step => step.2.idents := by
  induction steps generalizing first with
  | nil => exact (List.append_nil _).symm
  | cons step steps ih =>
    have hnext := ih (.binary step.1 first step.2)
    rw [idents, List.append_assoc] at hnext
    exact hnext

mutual

theorem Primary.idents_le {ts rest : List Token} {e : Node} (h : Primary ts e rest) :
    e.idents.length + rest.length ≤ ts.length := by
  match h with
  | .number _ _ _ _ => simp [idents]
  | .name _ => simp [idents, Nat.add_comm]
  | .parens _ hinside _ =>
    have := hinside.idents_le
    simp only [List.length_cons] at this ⊢
    omega

theorem Unary.idents_le {ts rest : List Token} {e : Node} (h : Unary ts e rest) :
    e.idents.length + rest.length ≤ ts.length := by
  match h with
  | .plain h => exact h.idents_le
  | .plus _ h => exact Nat.le_succ_of_le h.idents_le
  | .minus _ h =>
    simp only [idents, List.nil_append]
    exact Nat.le_succ_of_le h.idents_le

theorem Operand.idents_le {level : Level} {ts rest : List Token} {e : Node}
    (h : Operand level ts e rest) : e.idents.length + rest.length ≤ ts.length := by
  match h with
  | .chain _ h => exact h.idents_le
  | .unary _ h => exact h.idents_le

theorem Tail.idents_le {level : Level} {ts rest : List Token} {steps : List (Operator × Node)}
    (h : Tail level ts steps rest) :
    (steps.flatMap fun step => step.2.idents).length + rest.length ≤ ts.length := by
  match h with
  | .nil => simp
  | .cons _ hoperand htail =>
    have hfirst := hoperand.idents_le
    have hothers := htail.idents_le
    simp only [List.flatMap_cons, List.length_append, List.length_cons]
    omega

theorem Chain.idents_le {level : Level} {ts rest : List Token} {e : Node}
    (h : Chain level ts e rest) : e.idents.length + rest.length ≤ ts.length := by
  match h with
  | .fold hoperand htail =>
    have hfirst := hoperand.idents_le
    have hothers := htail.idents_le
    rw [idents_leftward, List.length_append]
    omega

theorem Assign.idents_le {ts rest : List Token} {e : Node} (h : Assign ts e rest) :
    e.idents.length + rest.length ≤ ts.length := by
  match h with
  | .plain h => exact h.idents_le
  | .assign htarget _ hvalue =>
    have htarget' := htarget.idents_le
    have hvalue' := hvalue.idents_le
    simp only [idents, List.length_append, List.length_cons, List.length_nil] at htarget' ⊢
    omega

theorem Expr.idents_le {ts rest : List Token} {e : Node} (h : Expr ts e rest) :
    e.idents.length + rest.length ≤ ts.length := by
  match h with
  | .assign h => exact h.idents_le

end

theorem Clause.idents_le {k : Token.Kind} {ts rest : List Token} {o : Option Node}
    (h : Clause k ts o rest) : (identsOptional o).length + rest.length ≤ ts.length := by
  match h with
  | .omitted _ => simp [identsOptional]
  | .given h _ =>
    have := h.idents_le
    simp only [identsOptional, List.length_cons] at this ⊢
    omega

theorem Condition.idents_le {k : Token.Kind} {ts rest : List Token} {e : Node}
    (h : Condition k ts e rest) : e.idents.length + rest.length ≤ ts.length := by
  match h with
  | .parens _ _ h _ =>
    have := h.idents_le
    simp only [List.length_cons] at this ⊢
    omega

mutual

theorem Stmt.idents_le {ts rest : List Token} {n : Node} (h : Stmt ts n rest) :
    n.idents.length + rest.length ≤ ts.length := by
  match h with
  | .expr h _ =>
    have := h.idents_le
    simp only [List.length_cons] at this
    omega
  | .ret _ h _ =>
    have := h.idents_le
    simp only [idents, List.length_cons] at this ⊢
    omega
  | .ifOnly hcondition hyes _ =>
    have h₁ := hcondition.idents_le
    have h₂ := hyes.idents_le
    simp only [idents, identsOptional, List.length_append, List.length_nil]
    omega
  | .ifElse hcondition hyes _ hno =>
    have h₁ := hcondition.idents_le
    have h₂ := hyes.idents_le
    have h₃ := hno.idents_le
    simp only [idents, identsOptional, List.length_append, List.length_cons] at h₂ ⊢
    omega
  | .loop hcondition hbody =>
    have h₁ := hcondition.idents_le
    have h₂ := hbody.idents_le
    simp only [idents, List.length_append]
    omega
  | .iter _ _ hinit htest hstep hbody =>
    have h₁ := hinit.idents_le
    have h₂ := htest.idents_le
    have h₃ := hstep.idents_le
    have h₄ := hbody.idents_le
    simp only [idents, List.length_append, List.length_cons]
    omega
  | .block _ hbody _ =>
    have := hbody.idents_le
    simp only [idents, List.length_cons] at this ⊢
    omega

theorem Stmts.idents_le {ts rest : List Token} {ns : List Node} (h : Stmts ts ns rest) :
    (identsAll ns).length + rest.length ≤ ts.length := by
  match h with
  | .nil => simp [identsAll]
  | .cons hfirst hothers =>
    have h₁ := hfirst.idents_le
    have h₂ := hothers.idents_le
    simp only [identsAll, List.length_append]
    omega

end

end Grammar

/-- A program has no more names than its source has bytes. -/
theorem idents_le_of_parse {source : Text} {p : Program} (h : Program.parse source = .ok p) :
    (Node.identsAll p).length ≤ source.length := by
  obtain ⟨tokens, hscan, hparse⟩ := exists_tokens_of_parse h
  have hspells := (ofTokens_eq_ok_iff (Token.proper_of_scan hscan)).1 hparse
  have hidents := hspells.idents_le
  have hlength := Token.length_le_of_scan hscan
  rw [List.length_nil] at hidents
  omega

namespace Word

theorem alignUp_sixteen (n : Nat) :
    alignUp (Int64.ofNat n) 16 = Int64.ofInt (n + 15) / 16 * 16 := by
  have hsum : Int64.ofNat n + 16 - 1 = Int64.ofInt (n + 15) := by
    have hsixteen : (16 : Int64) = Int64.ofInt 16 := rfl
    have hone : (1 : Int64) = Int64.ofInt 1 := rfl
    rw [hsixteen, hone, ← Int64.ofInt_eq_ofNat, ← Int64.ofInt_add, ← Int64.ofInt_sub]
    congr 1
    omega
  rw [alignUp, hsum]

/-- Dividing an integer that is a word, and multiplying again. -/
theorem ofInt_div_mul {x : Int} (hlow : -2 ^ 63 ≤ x) (hhigh : x < 2 ^ 63) :
    Int64.ofInt x / 16 * 16 = Int64.ofInt (x.tdiv 16 * 16) := by
  have hsixteen : (16 : Int64) = Int64.ofInt 16 := rfl
  have hmin : Int64.minValue.toInt = -2 ^ 63 := rfl
  have hmax : Int64.maxValue.toInt = 2 ^ 63 - 1 := rfl
  rw [hsixteen, ← Int64.ofInt_tdiv (by omega) (by omega) (by omega) (by omega), ← Int64.ofInt_mul]

/-- Below the greatest word, rounding up is exact. -/
theorem alignUp_ofNat {n : Nat} (h : n + 15 < 2 ^ 63) :
    alignUp (Int64.ofNat n) 16 = Int64.ofNat (16 * ((n + 15) / 16)) := by
  rw [alignUp_sixteen, ofInt_div_mul (by omega) (by omega), ← Int64.ofInt_eq_ofNat]
  congr 1
  have hdiv : ((n : Int) + 15).tdiv 16 = ((n + 15) / 16 : Nat) := (Int.ofNat_tdiv (n + 15) 16).symm
  rw [hdiv]
  omega

/-- Above it the sum wraps, and nothing positive is left. -/
theorem not_pos_alignUp {n : Nat} (hlow : 2 ^ 63 ≤ n + 15) (hhigh : n < 2 ^ 64) :
    ¬ 0 < alignUp (Int64.ofNat n) 16 := by
  have hwrap : Int64.ofInt (n + 15) = Int64.ofInt (n + 15 - 2 ^ 64) := by
    have hzero : Int64.ofInt (2 ^ 64) = 0 := rfl
    rw [Int64.ofInt_sub, hzero, Int64.sub_zero]
  have hmost : ((n : Int) + 15 - 2 ^ 64).tdiv 16 ≤ Int.tdiv 14 16 :=
    Int.tdiv_le_tdiv (by omega) (by omega)
  have hleast : Int.tdiv (-2 ^ 63) 16 ≤ ((n : Int) + 15 - 2 ^ 64).tdiv 16 :=
    Int.tdiv_le_tdiv (by omega) (by omega)
  rw [alignUp_sixteen, hwrap, ofInt_div_mul (by omega) (by omega), Int64.lt_iff_toInt_lt]
  generalize ((n : Int) + 15 - 2 ^ 64).tdiv 16 = t at hmost hleast
  have hmost' : t ≤ 0 := hmost
  have hleast' : -2 ^ 59 ≤ t := hleast
  rw [Int64.toInt_ofInt_of_le (by omega) (by omega)]
  change ¬ 0 < t * 16
  omega

end Word

namespace Frame

/-- The slots that the frame reserves. -/
def slots (f : Frame) : Nat := if 0 < f.capacity then f.capacity.toInt.toNat else f.names.length

/-- The words that the frame reserves: the slots, and one more if they are odd. -/
def words (f : Frame) : Nat := 2 * ((f.slots + 1) / 2)

theorem slots_le_words (f : Frame) : f.slots ≤ f.words := by
  rw [words]
  omega

theorem names_le_slots {f : Frame} (h : f.Sound) : f.names.length ≤ f.slots := by
  rw [slots]
  split
  · next hpos =>
    have := h.2 hpos
    omega
  · exact Nat.le_refl _

theorem names_le_words {f : Frame} (h : f.Sound) : f.names.length ≤ f.words :=
  Nat.le_trans (names_le_slots h) f.slots_le_words

theorem sound_empty (capacity : Word) : (empty capacity).Sound :=
  ⟨List.nodup_nil, fun hpos => Int.le_of_lt (Int64.lt_iff_toInt_lt.1 hpos)⟩

/-- The slots are bounded by the limit of the frame, or else by the names. -/
theorem slots_lt {capacity : Word} {f : Frame} {used : List Text} {bound : Nat}
    (h : (empty capacity).Grows f used) (hcapacity : capacity.toInt < bound)
    (hused : used.length < bound) : f.slots < bound := by
  rw [slots]
  split
  · next hpos =>
    have hnonneg := Int64.lt_iff_toInt_lt.1 hpos
    rw [h.capacity] at hnonneg ⊢
    change (0 : Int) < capacity.toInt at hnonneg
    change capacity.toInt.toNat < bound
    omega
  · have hnodup := (h.sound (sound_empty capacity)).1
    have hsubset : f.names ⊆ used := fun x hx => (h.only x hx).resolve_left List.not_mem_nil
    exact Nat.lt_of_le_of_lt (List.subperm_of_subset hnodup hsubset).length_le hused

theorem size_eq_alignUp (f : Frame) : f.size = Word.alignUp (Int64.ofNat (8 * f.slots)) 16 := by
  have hslots : (if 0 < f.capacity then f.capacity else Int64.ofNat f.names.length) =
      Int64.ofNat f.slots := by
    rw [slots]
    split
    · next hpos =>
      have hpos' := Int64.lt_iff_toInt_lt.1 hpos
      rw [← Int64.ofInt_eq_ofNat, Int.toNat_of_nonneg (by simpa using Int.le_of_lt hpos'),
        Int64.ofInt_toInt]
    · rfl
  rw [size, hslots, Int64.ofNat_mul, Int64.mul_comm]
  rfl

theorem size_eq {f : Frame} (h : f.slots < 2 ^ 59) : f.size = Int64.ofNat (8 * f.words) := by
  rw [size_eq_alignUp, Word.alignUp_ofNat (by omega), words]
  congr 1
  omega

end Frame
end WordC
