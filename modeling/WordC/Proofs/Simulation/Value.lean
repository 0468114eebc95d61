import WordC.Proofs.Simulation.Instruction
/-!
The code of an expression leaves the value of the expression on the stack.

What the machine computes is compared with the exact results that the meaning of an
operator is stated in.
-/

namespace WordC
namespace Simulation

open Asm Evaluation Machine
open Codegen hiding State push pop run

/-! ## Operators -/

theorem wrap_add (a b : Word) : wrap (a.toInt + b.toInt) = a + b := by
  rw [wrap, Int64.ofInt_add, Int64.ofInt_toInt, Int64.ofInt_toInt]

theorem wrap_sub (a b : Word) : wrap (a.toInt - b.toInt) = a - b := by
  rw [wrap, Int64.ofInt_sub, Int64.ofInt_toInt, Int64.ofInt_toInt]

theorem wrap_mul (a b : Word) : wrap (a.toInt * b.toInt) = a * b := by
  rw [wrap, Int64.ofInt_mul, Int64.ofInt_toInt, Int64.ofInt_toInt]

theorem wrap_tdiv (a b : Word) : wrap (a.toInt.tdiv b.toInt) = a / b := by
  rw [wrap, Int64.ofInt_tdiv a.minValue_le_toInt a.toInt_le b.minValue_le_toInt b.toInt_le,
    Int64.ofInt_toInt, Int64.ofInt_toInt]

/-- What is left of `rax` after its low byte was set and the rest cleared. -/
theorem low_byte (w : Word) (b : Bool) :
    ((w &&& ~~~0xff) ||| ((if b then 1 else 0) &&& 0xff)) &&& 0xff = if b then 1 else 0 := by
  have hdistrib : ∀ x y z : Word, x &&& (y ||| z) = (x &&& y) ||| (x &&& z) := fun x y z =>
    Int64.toBitVec_inj.1 BitVec.and_or_distrib_left
  have hclear : (0xff : Word) &&& ~~~0xff = 0 := by decide
  rw [Int64.and_comm, hdistrib, Int64.and_comm w, ← Int64.and_assoc, hclear, Int64.zero_and,
    Int64.zero_or]
  cases b with
  | true => decide
  | false => decide

/-- The conditions that comparisons test. -/
def condition? : Operator → Option Condition
  | .less => some .l
  | .lessEqual => some .le
  | .greater => some .g
  | .greaterEqual => some .ge
  | .equal => some .e
  | .notEqual => some .ne
  | _ => none

theorem operate_condition {operator : Operator} {c : Condition} (h : condition? operator = some c)
    (a b : Word) : operate operator a b = .ok (if c.holds a b then 1 else 0) := by
  cases operator with
  | less | lessEqual | greater | greaterEqual | equal | notEqual =>
    obtain rfl := Option.some.inj h
    simp [operate, truth, Condition.holds, Int64.lt_iff_toInt_lt, Int64.le_iff_toInt_le]
  | _ => cases h

variable {r : Routine} {accepts : Except Stop Word → Prop} {P : State → Prop}

section Operations

variable (hP : Closed r.image (r.demand accepts) P) {c : Config} {pos : Nat}

include hP

theorem good_arithmetic (f : Arithmetic)
    (hat : r.At pos (plain c.values.length [op (.arith f) [.register .rax, .register .rdi]]))
    (h : Good r P (pos + 1) { c with rax := f.apply c.rax c.rdi }) : Good r P pos c :=
  good_does hP hat.1 rfl (does_arith c f) h

theorem good_comparison (condition : Condition)
    (hat : r.At pos (plain c.values.length (operation?.comparison condition)))
    (h : ∀ flags, Good r P (pos + 3)
      { c with rax := if condition.holds c.rax c.rdi then 1 else 0, flags := flags }) :
    Good r P pos c := by
  obtain ⟨hcmp, hset, hmovzx, -⟩ := hat
  refine good_does hP hcmp rfl (does_cmp c) ?_
  refine good_does hP hset rfl (does_set rfl condition) ?_
  refine good_does hP hmovzx rfl (does_movzx _) ?_
  simp only [low_byte]
  exact h (some (c.rax, c.rdi))

theorem good_division
    (hat : r.At pos (plain c.values.length [op .cqo [], op .idiv [.register .rdi]]))
    (herror : ∀ stop, operate .div c.rax c.rdi = .error stop → accepts (.error stop))
    (h : ∀ v, operate .div c.rax c.rdi = .ok v → ∀ rdx,
      Good r P (pos + 2) { c with rax := v, rdx := rdx }) : Good r P pos c := by
  obtain ⟨hcqo, hidiv, -⟩ := hat
  refine good_does hP hcqo rfl (does_cqo c) ?_
  by_cases hzero : c.rdi = 0
  · refine good_idiv_zero hP hidiv rfl hzero (herror _ ?_)
    simp [operate, hzero]
  · have hzero' : ¬ c.rdi.toInt = 0 := fun heq => hzero (Int64.toInt_inj.1 heq)
    by_cases hfits : c.rax = Int64.minValue ∧ c.rdi = -1
    · refine good_idiv_overflow hP hidiv rfl rfl hfits.1 hfits.2 (herror _ ?_)
      rw [hfits.1, hfits.2]
      rfl
    · have hfits' : ¬ (c.rax.toInt = Word.least ∧ c.rdi.toInt = -1) := fun heq =>
        hfits ⟨Int64.toInt_inj.1 heq.1, Int64.toInt_inj.1 heq.2⟩
      refine good_does hP hidiv rfl (does_idiv rfl hzero hfits) (h _ ?_ _)
      rw [operate, if_neg hzero', if_neg hfits', wrap_tdiv]

/-- The code of an operator, with its operands in `rax` and `rdi`. -/
theorem good_operation {operator : Operator} (hknown : operator ∈ Operator.all)
    (hassign : operator ≠ .assign)
    (hat : r.At pos (plain c.values.length ((operation? operator).getD [])))
    (herror : ∀ stop, operate operator c.rax c.rdi = .error stop → accepts (.error stop))
    (h : ∀ v, operate operator c.rax c.rdi = .ok v → ∀ rdx flags,
      Good r P (pos + width (plain c.values.length ((operation? operator).getD [])))
        { c with rax := v, rdx := rdx, flags := flags }) : Good r P pos c := by
  have harithmetic : ∀ (f : Arithmetic), operate operator c.rax c.rdi = .ok (f.apply c.rax c.rdi) →
      operation? operator = some [op (.arith f) [.register .rax, .register .rdi]] →
      Good r P pos c := by
    intro f hvalue hcode
    rw [hcode] at hat h
    exact good_arithmetic hP f hat (h _ hvalue c.rdx c.flags)
  have hcomparison : ∀ (condition : Condition), condition? operator = some condition →
      operation? operator = some (operation?.comparison condition) → Good r P pos c := by
    intro condition hcondition hcode
    rw [hcode] at hat h
    exact good_comparison hP condition hat (h _ (operate_condition hcondition c.rax c.rdi) c.rdx)
  cases operator with
  | add => exact harithmetic .add (congrArg Except.ok (wrap_add c.rax c.rdi)) rfl
  | sub => exact harithmetic .sub (congrArg Except.ok (wrap_sub c.rax c.rdi)) rfl
  | mul => exact harithmetic .imul (congrArg Except.ok (wrap_mul c.rax c.rdi)) rfl
  | div => exact good_division hP hat herror fun v hv rdx => h v hv rdx c.flags
  | less => exact hcomparison .l rfl rfl
  | lessEqual => exact hcomparison .le rfl rfl
  | greater => exact hcomparison .g rfl rfl
  | greaterEqual => exact hcomparison .ge rfl rfl
  | equal => exact hcomparison .e rfl rfl
  | notEqual => exact hcomparison .ne rfl rfl
  | assign => exact absurd rfl hassign
  | unknown code => exact absurd hknown (by simp [Operator.all])

end Operations

/-! ## Values -/

theorem Routine.Stands.count {pos depth : Nat} {operands : List Operand} {assigns : Option Text}
    (h : r.Stands pos ⟨.push, operands⟩ depth assigns) : depth + 1 ≤ r.deepest := by
  obtain ⟨opens, hsite⟩ := h.site
  exact r.count_le _ _ hsite

theorem plain_append (depth : Nat) (xs ys : Code) :
    plain depth (xs ++ ys) = plain depth xs ++ plain depth ys :=
  List.map_append

section Values

variable (hP : Closed r.image (r.demand accepts) P)

include hP

theorem good_push {c : Config} {pos : Nat} {o : Operand} {v : Word}
    (hread : ∀ s, Matches r c s → read o s = .ok v s)
    (hstands : r.Stands pos ⟨.push, [o]⟩ c.values.length none)
    (h : Good r P (pos + 1) { c with values := v :: c.values }) : Good r P pos c :=
  good_does hP hstands rfl (does_push hread hstands.count) h

theorem good_push_rax {c : Config} {pos : Nat}
    (hstands : r.Stands pos ⟨.push, [.register .rax]⟩ c.values.length none)
    (h : Good r P (pos + 1) { c with values := c.rax :: c.values }) : Good r P pos c := by
  refine good_push hP (fun s hs => ?_) hstands h
  rw [← hs.rax]
  rfl

/-- The address of a local. -/
theorem good_slotAddress {c : Config} {pos : Nat} (x : Text)
    (hat : r.At pos (plain c.values.length (slotAddress (r.names.idxOf x))))
    (h : Good r P (pos + 2) { c with rax := Stack.below r.size (r.place x) }) : Good r P pos c := by
  obtain ⟨hmov, hsub, -⟩ := hat
  refine good_does hP hmov rfl (does_mov_base c) ?_
  refine good_does hP hsub rfl (does_sub_immediate _ _) ?_
  have hplace : Stack.below r.size 2 - Int64.ofNat (Frame.offset (r.names.idxOf x)) =
      Stack.below r.size (r.place x) := by
    rw [Frame.offset, wordSize, Stack.below_sub]
    congr 1
    rw [Routine.place]
    omega
  simp only [hplace]
  exact h

theorem good_value {e : Node} (he : e.isValue = true) {c : Config} {pos : Nat}
    (hnames : ∀ x ∈ e.idents, x ∈ r.names)
    (hat : r.At pos (valueSites r.names.idxOf c.values.length e))
    (herror : ∀ stop, value e c.store = .error stop → accepts (.error stop))
    (h : ∀ v σ, value e c.store = .ok (v, σ) → ∀ rax rdi rdx flags,
      Good r P (pos + width (valueSites r.names.idxOf c.values.length e))
        ⟨rax, rdi, rdx, flags, σ, v :: c.values⟩) : Good r P pos c := by
  induction e, he using Node.isValue_induction generalizing c pos with
  | num v _ =>
    rw [valueSites] at hat h
    split at hat
    · next hshort =>
      simp only [hshort, if_true] at h
      exact good_push hP (fun s hs => rfl) hat.1 (h v c.store rfl _ _ _ _)
    · next hlong =>
      rw [if_neg hlong] at h
      refine good_does hP hat.1 rfl (does_mov_immediate c v) ?_
      exact good_push_rax hP hat.2.1 (h v c.store rfl _ _ _ _)
  | ident x _ =>
    rw [valueSites, plain_append] at hat h
    obtain ⟨hplace, hload, hpush, -⟩ := Routine.at_append.1 hat
    have hx : x ∈ r.names := hnames x (List.mem_singleton_self x)
    refine good_slotAddress hP x hplace ?_
    refine good_does hP hload rfl (does_load hx rfl) ?_
    exact good_push_rax hP hpush (h (c.store x) c.store rfl _ _ _ _)
  | assign x right _ hright ih =>
    have hx : x ∈ r.names := hnames x (List.mem_append_left _ (List.mem_singleton_self x))
    rw [valueSites, plain_append] at hat h
    simp only [Routine.at_append, width_append, ← Nat.add_assoc] at hat h
    obtain ⟨⟨⟨⟨⟨⟨hplace, hheld⟩, hright'⟩, hrdi⟩, hrax⟩, hstore⟩, hpush⟩ := hat
    refine good_slotAddress hP x hplace ?_
    refine good_push_rax hP hheld.1 ?_
    refine ih (fun y hy => hnames y (List.mem_append_right _ hy)) hright' ?_ ?_
    · intro stop hstop
      refine herror stop ?_
      rw [value_assign, show value right c.store = _ from hstop]
      rfl
    · intro v σ hv rax rdi rdx flags
      refine good_does hP hrdi.1 rfl (does_pop_rdi rfl) ?_
      refine good_does hP hrax.1 rfl (does_pop_rax rfl) ?_
      refine good_does hP hstore.1 rfl (does_store hx rfl) ?_
      refine good_push hP (v := v) (fun s hs => ?_) hpush.1 (h v (σ.set x v) ?_ _ _ _ _)
      · rw [← show s.registers.rdi = v from hs.rdi]
        rfl
      · rw [value_assign, show value right c.store = _ from hv]
        rfl
  | binary operator left right _ hleft hright hknown hassign ihleft ihright =>
    rw [valueSites_binary _ hassign, plain_append] at hat h
    simp only [Routine.at_append, width_append, ← Nat.add_assoc] at hat h
    obtain ⟨⟨⟨⟨hleft', hright'⟩, hrdi⟩, hrax⟩, hcode, hpush⟩ := hat
    refine ihleft (fun y hy => hnames y (List.mem_append_left _ hy)) hleft' ?_ ?_
    · intro stop hstop
      refine herror stop ?_
      rw [value_binary hassign, hstop]
      rfl
    · intro a σ₁ ha rax rdi rdx flags
      refine ihright (fun y hy => hnames y (List.mem_append_right _ hy)) hright' ?_ ?_
      · intro stop hstop
        refine herror stop ?_
        rw [value_binary hassign, ha]
        change value right σ₁ >>= _ = _
        rw [show value right σ₁ = _ from hstop]
        rfl
      · intro b σ₂ hb rax rdi rdx flags
        have hvalue : value (.binary operator left right) c.store =
            operate operator a b >>= fun v => .ok (v, σ₂) := by
          rw [value_binary hassign, ha]
          change value right σ₁ >>= _ = _
          rw [show value right σ₁ = _ from hb]
          rfl
        refine good_does hP hrdi.1 rfl (does_pop_rdi rfl) ?_
        refine good_does hP hrax.1 rfl (does_pop_rax rfl) ?_
        refine good_operation hP hknown hassign hcode ?_ ?_
        · intro stop hstop
          refine herror stop ?_
          rw [hvalue, show operate operator a b = _ from hstop]
          rfl
        · intro v hv rdx flags
          refine good_push_rax hP hpush.1 (h v σ₂ ?_ _ _ _ _)
          rw [hvalue, show operate operator a b = _ from hv]
          rfl

end Values

end Simulation
end WordC
