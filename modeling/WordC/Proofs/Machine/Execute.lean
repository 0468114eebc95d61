import WordC.Machine
import WordC.Proofs.Sequence
/-!
What the instructions of compiled code do to the machine.

One lemma for each form of instruction that the generator writes.  Those that reach
memory have a second one for the access that fails, which changes nothing.
-/

namespace WordC
namespace Machine

open Asm

variable (image : Image) (s : State)

/-- The next instruction follows, with other registers. -/
def State.onward (s : State) (registers : Registers) : State :=
  { s with registers := registers, pc := s.pc + 1 }

theorem execute_mov_immediate (r : Register) (v : Word) :
    execute image ⟨.mov, [.register r, .immediate v]⟩ s =
      .ok () (s.onward (s.registers.write r v)) := rfl

theorem execute_mov (r r' : Register) :
    execute image ⟨.mov, [.register r, .register r']⟩ s =
      .ok () (s.onward (s.registers.write r (s.registers.read r'))) := rfl

theorem execute_movzx (r r' : Register) :
    execute image ⟨.movzx, [.register r, .register r']⟩ s =
      .ok () (s.onward (s.registers.write r (s.registers.read r'))) := rfl

theorem execute_arith (f : Arithmetic) (r r' : Register) :
    execute image ⟨.arith f, [.register r, .register r']⟩ s =
      .ok () (s.onward (s.registers.write r (f.apply (s.registers.read r) (s.registers.read r')))) :=
  rfl

theorem execute_arith_immediate (f : Arithmetic) (r : Register) (v : Word) :
    execute image ⟨.arith f, [.register r, .immediate v]⟩ s =
      .ok () (s.onward (s.registers.write r (f.apply (s.registers.read r) v))) := rfl

theorem execute_cqo :
    execute image ⟨.cqo, []⟩ s =
      .ok () (s.onward { s.registers with rdx := if s.registers.rax < 0 then -1 else 0 }) := rfl

theorem execute_cmp (r r' : Register) :
    execute image ⟨.cmp, [.register r, .register r']⟩ s =
      .ok () { s.onward s.registers with
        flags := some (s.registers.read r, s.registers.read r') } := rfl

theorem execute_cmp_immediate (r : Register) (v : Word) :
    execute image ⟨.cmp, [.register r, .immediate v]⟩ s =
      .ok () { s.onward s.registers with flags := some (s.registers.read r, v) } := rfl

theorem execute_jmp {name : Text} {pos : Int} (h : image.index? name = some pos) :
    execute image ⟨.jmp, [.target name]⟩ s = .ok () { s with pc := pos } := by
  have hexec : execute image ⟨.jmp, [.target name]⟩ s =
      .ok () { s with pc := (image.index? name).getD 0 } := rfl
  rw [hexec, h]
  rfl

variable {s}

/-! ## One after the other -/

section Step

variable {s' : State}

/-- The program counter moves when the instruction is done. -/
theorem execute_of_step {i : Instruction} {next : Int} (h : step image i s = .ok next s') :
    execute image i s = .ok () { s' with pc := next } :=
  bind_of_ok h

theorem execute_of_step_error {i : Instruction} {t : Trap} (h : step image i s = .error t s') :
    execute image i s = .error t s' :=
  bind_of_error h

end Step

theorem test_of_flags {a b : Word} (h : s.flags = some (a, b)) (c : Condition) :
    test c s = .ok (c.holds a b) s := by
  obtain ⟨registers, stack, flags, pc, steps⟩ := s
  obtain rfl : flags = some (a, b) := h
  rfl

theorem execute_set {a b : Word} (h : s.flags = some (a, b)) (c : Condition) :
    execute image ⟨.set c, [.register .al]⟩ s =
      .ok () (s.onward (s.registers.write .al (if c.holds a b then 1 else 0))) := by
  have hstep : step image ⟨.set c, [.register .al]⟩ s = .ok (s.pc + 1)
      { s with registers := s.registers.write .al (if c.holds a b then 1 else 0) } :=
    (bind_of_ok rfl).trans (bind_of_ok (test_of_flags h c))
  exact execute_of_step image hstep

theorem execute_jumpIf_taken {a b : Word} (h : s.flags = some (a, b)) {c : Condition}
    (hc : c.holds a b = true) {name : Text} {pos : Int} (hname : image.index? name = some pos) :
    execute image ⟨.jumpIf c, [.target name]⟩ s = .ok () { s with pc := pos } := by
  refine execute_of_step image ((bind_of_ok rfl).trans ?_)
  refine (bind_of_ok (test_of_flags h c)).trans ?_
  rw [hc]
  have htarget : target image ⟨.jumpIf c, [.target name]⟩ s =
      .ok ((image.index? name).getD 0) s := rfl
  rw [hname] at htarget
  exact htarget

theorem execute_jumpIf_passed {a b : Word} (h : s.flags = some (a, b)) {c : Condition}
    (hc : c.holds a b = false) (name : Text) :
    execute image ⟨.jumpIf c, [.target name]⟩ s = .ok () (s.onward s.registers) := by
  refine execute_of_step image ((bind_of_ok rfl).trans ?_)
  refine (bind_of_ok (test_of_flags h c)).trans ?_
  rw [hc]
  rfl

/-! ## Division -/

theorem divide_eq :
    divide (.register .rdi) s =
      (if s.registers.rdi = 0 then fault .divisionByZero
      else if s.registers.rdx ≠ (if s.registers.rax < 0 then -1 else 0) then
        fault .divisionOverflow
      else if s.registers.rax = Int64.minValue && s.registers.rdi = -1 then fault .divisionOverflow
      else do
        setRegister .rax (s.registers.rax / s.registers.rdi)
        setRegister .rdx (s.registers.rax % s.registers.rdi)) s := rfl

theorem execute_idiv (hzero : s.registers.rdi ≠ 0)
    (hsign : s.registers.rdx = if s.registers.rax < 0 then -1 else 0)
    (hfits : ¬ (s.registers.rax = Int64.minValue ∧ s.registers.rdi = -1)) :
    execute image ⟨.idiv, [.register .rdi]⟩ s =
      .ok () (s.onward { s.registers with
        rax := s.registers.rax / s.registers.rdi, rdx := s.registers.rax % s.registers.rdi }) := by
  have hdivide := divide_eq (s := s)
  rw [if_neg hzero, if_neg (by simpa using hsign), if_neg (by simpa using hfits)] at hdivide
  have hstep : step image ⟨.idiv, [.register .rdi]⟩ s = .ok (s.pc + 1) { s with
      registers := { s.registers with
        rax := s.registers.rax / s.registers.rdi, rdx := s.registers.rax % s.registers.rdi } } :=
    (bind_of_ok rfl).trans ((bind_of_ok rfl).trans (bind_of_ok hdivide))
  exact execute_of_step image hstep

theorem execute_idiv_zero (hzero : s.registers.rdi = 0) :
    execute image ⟨.idiv, [.register .rdi]⟩ s = .error (.fault .divisionByZero) s := by
  have hdivide := divide_eq (s := s)
  rw [if_pos hzero] at hdivide
  refine execute_of_step_error image ?_
  exact (bind_of_ok rfl).trans ((bind_of_ok rfl).trans (bind_of_error hdivide))

theorem execute_idiv_overflow (hmin : s.registers.rax = Int64.minValue)
    (hminus : s.registers.rdi = -1)
    (hsign : s.registers.rdx = if s.registers.rax < 0 then -1 else 0) :
    execute image ⟨.idiv, [.register .rdi]⟩ s = .error (.fault .divisionOverflow) s := by
  have hdivide := divide_eq (s := s)
  have hzero : s.registers.rdi ≠ 0 := by
    rw [hminus]
    decide
  rw [if_neg hzero, if_neg (by simpa using hsign), if_pos (by simp [hmin, hminus])] at hdivide
  refine execute_of_step_error image ?_
  exact (bind_of_ok rfl).trans ((bind_of_ok rfl).trans (bind_of_error hdivide))

/-! ## Memory -/

theorem load_of_ok {address v : Word} (h : s.stack.load address = .ok v) :
    load address s = .ok v s := by
  have hlift : load address s = lift (s.stack.load address) s := rfl
  rw [hlift, h]
  rfl

theorem load_of_fault {address : Word} {f : Fault} (h : s.stack.load address = .error (.fault f)) :
    load address s = .error (.fault f) s := by
  have hlift : load address s = lift (s.stack.load address) s := rfl
  rw [hlift, h]
  rfl

theorem store_of_ok {address v : Word} {stack : Stack} (h : s.stack.store address v = .ok stack) :
    store address v s = .ok () { s with stack := stack } := by
  refine (bind_of_ok rfl).trans ?_
  simp only [h]
  rfl

theorem store_of_fault {address v : Word} {f : Fault}
    (h : s.stack.store address v = .error (.fault f)) :
    store address v s = .error (.fault f) s := by
  refine (bind_of_ok rfl).trans ?_
  simp only [h]
  rfl

theorem push_of_ok {v : Word} {stack : Stack}
    (h : s.stack.store (s.registers.rsp - 8) v = .ok stack) :
    push v s = .ok () { s with
      registers := { s.registers with rsp := s.registers.rsp - 8 }, stack := stack } :=
  (bind_of_ok rfl).trans (bind_of_ok (store_of_ok h))

theorem push_of_fault {v : Word} {f : Fault}
    (h : s.stack.store (s.registers.rsp - 8) v = .error (.fault f)) :
    push v s = .error (.fault f) s :=
  (bind_of_ok rfl).trans (bind_of_error (store_of_fault h))

theorem pop_of_ok {v : Word} (h : s.stack.load s.registers.rsp = .ok v) :
    pop s = .ok v { s with registers := { s.registers with rsp := s.registers.rsp + 8 } } :=
  (bind_of_ok rfl).trans (bind_of_ok (load_of_ok h))

theorem execute_push {o : Operand} {v : Word} (hread : read o s = .ok v s) {stack : Stack}
    (hstore : s.stack.store (s.registers.rsp - 8) v = .ok stack) :
    execute image ⟨.push, [o]⟩ s =
      .ok () { s.onward { s.registers with rsp := s.registers.rsp - 8 } with stack := stack } := by
  have hstep : step image ⟨.push, [o]⟩ s = .ok (s.pc + 1) { s with
      registers := { s.registers with rsp := s.registers.rsp - 8 }, stack := stack } :=
    (bind_of_ok rfl).trans ((bind_of_ok rfl).trans
      ((bind_of_ok hread).trans (bind_of_ok (push_of_ok hstore))))
  exact execute_of_step image hstep

theorem execute_push_fault {o : Operand} {v : Word} (hread : read o s = .ok v s) {f : Fault}
    (hstore : s.stack.store (s.registers.rsp - 8) v = .error (.fault f)) :
    execute image ⟨.push, [o]⟩ s = .error (.fault f) s := by
  refine execute_of_step_error image ((bind_of_ok rfl).trans ((bind_of_ok rfl).trans ?_))
  exact (bind_of_ok hread).trans (bind_of_error (push_of_fault hstore))

theorem execute_pop {v : Word} (hload : s.stack.load s.registers.rsp = .ok v) (r : Register) :
    execute image ⟨.pop, [.register r]⟩ s =
      .ok () (s.onward ({ s.registers with rsp := s.registers.rsp + 8 }.write r v)) := by
  have hstep : step image ⟨.pop, [.register r]⟩ s = .ok (s.pc + 1) { s with
      registers := { s.registers with rsp := s.registers.rsp + 8 }.write r v } :=
    (bind_of_ok rfl).trans (bind_of_ok (pop_of_ok hload))
  exact execute_of_step image hstep

theorem execute_ret {v : Word} (hload : s.stack.load s.registers.rsp = .ok v) :
    execute image ⟨.ret, []⟩ s =
      .ok () { s with
        registers := { s.registers with rsp := s.registers.rsp + 8 }, pc := v.toInt } := by
  have hstep : step image ⟨.ret, []⟩ s = .ok v.toInt { s with
      registers := { s.registers with rsp := s.registers.rsp + 8 } } :=
    (bind_of_ok rfl).trans (bind_of_ok (pop_of_ok hload))
  exact execute_of_step image hstep

theorem read_base {v : Word} (h : s.stack.load s.registers.rax = .ok v) :
    read (.memory .rax 0) s = .ok v s := by
  have hread : read (.memory .rax 0) s = load (s.registers.rax + 0) s := rfl
  rw [hread, Int64.add_zero, load_of_ok h]

theorem read_base_fault {f : Fault} (h : s.stack.load s.registers.rax = .error (.fault f)) :
    read (.memory .rax 0) s = .error (.fault f) s := by
  have hread : read (.memory .rax 0) s = load (s.registers.rax + 0) s := rfl
  rw [hread, Int64.add_zero, load_of_fault h]

theorem write_base {v : Word} {stack : Stack} (h : s.stack.store s.registers.rax v = .ok stack) :
    write (.memory .rax 0) v s = .ok () { s with stack := stack } := by
  have hwrite : write (.memory .rax 0) v s = store (s.registers.rax + 0) v s := rfl
  rw [hwrite, Int64.add_zero, store_of_ok h]

theorem write_base_fault {v : Word} {f : Fault}
    (h : s.stack.store s.registers.rax v = .error (.fault f)) :
    write (.memory .rax 0) v s = .error (.fault f) s := by
  have hwrite : write (.memory .rax 0) v s = store (s.registers.rax + 0) v s := rfl
  rw [hwrite, Int64.add_zero, store_of_fault h]

theorem execute_load {v : Word} (hload : s.stack.load s.registers.rax = .ok v) :
    execute image ⟨.mov, [.register .rax, .memory .rax 0]⟩ s =
      .ok () (s.onward { s.registers with rax := v }) := by
  have hstep : step image ⟨.mov, [.register .rax, .memory .rax 0]⟩ s = .ok (s.pc + 1) { s with
      registers := { s.registers with rax := v } } :=
    (bind_of_ok rfl).trans ((bind_of_ok rfl).trans (bind_of_ok (read_base hload)))
  exact execute_of_step image hstep

theorem execute_load_fault {f : Fault} (hload : s.stack.load s.registers.rax = .error (.fault f)) :
    execute image ⟨.mov, [.register .rax, .memory .rax 0]⟩ s = .error (.fault f) s := by
  refine execute_of_step_error image ((bind_of_ok rfl).trans ((bind_of_ok rfl).trans ?_))
  exact bind_of_error (read_base_fault hload)

theorem execute_store {stack : Stack}
    (hstore : s.stack.store s.registers.rax s.registers.rdi = .ok stack) :
    execute image ⟨.mov, [.memory .rax 0, .register .rdi]⟩ s =
      .ok () { s.onward s.registers with stack := stack } := by
  have hstep : step image ⟨.mov, [.memory .rax 0, .register .rdi]⟩ s = .ok (s.pc + 1) { s with
      stack := stack } :=
    (bind_of_ok rfl).trans ((bind_of_ok rfl).trans ((bind_of_ok rfl).trans ((bind_of_ok rfl).trans
      (bind_of_ok (write_base hstore)))))
  exact execute_of_step image hstep

theorem execute_store_fault {f : Fault}
    (hstore : s.stack.store s.registers.rax s.registers.rdi = .error (.fault f)) :
    execute image ⟨.mov, [.memory .rax 0, .register .rdi]⟩ s = .error (.fault f) s := by
  refine execute_of_step_error image ((bind_of_ok rfl).trans ((bind_of_ok rfl).trans ?_))
  refine (bind_of_ok rfl).trans ((bind_of_ok rfl).trans ?_)
  exact bind_of_error (write_base_fault hstore)

end Machine
end WordC
