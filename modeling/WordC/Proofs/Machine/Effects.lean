import Mathlib.Data.List.Basic
import WordC.Proofs.Asm.Admission
import WordC.Proofs.Machine.Access
import WordC.Proofs.Machine.Execute
import WordC.Proofs.Machine.Run
/-!
What an instruction of the language can do.

`Ends` follows an execution forwards through success and failure.  An instruction that
the reader lets through keeps the size of the stack and the registers outside the
language, and it fails for the reasons that `Fails` lists.  Every state that a run visits
inherits the first, and every outcome the second.
-/

namespace WordC
namespace Machine

open Asm

/-! ## Executions -/

/-- Started in `s`, the execution succeeds with `ok` or fails with `error`. -/
inductive Ends {α : Type} (x : Exec α) (s : State) (ok : α → State → Prop)
    (error : Trap → State → Prop) : Prop where
  | of_ok {a : α} {s' : State} : x s = .ok a s' → ok a s' → Ends x s ok error
  | of_error {t : Trap} {s' : State} : x s = .error t s' → error t s' → Ends x s ok error

namespace Ends

variable {α β : Type} {x : Exec α} {f : α → Exec β} {s s' : State} {a : α}
  {ok mid : α → State → Prop} {ok' : β → State → Prop} {error error' : Trap → State → Prop}

theorem succeeded (h : Ends x s ok error) (hx : x s = .ok a s') : ok a s' := by
  cases h with
  | of_ok hrun hok =>
    cases hx.symm.trans hrun
    exact hok
  | of_error hrun _ => cases hx.symm.trans hrun

theorem failed {t : Trap} (h : Ends x s ok error) (hx : x s = .error t s') : error t s' := by
  cases h with
  | of_ok hrun _ => cases hx.symm.trans hrun
  | of_error hrun herror =>
    cases hx.symm.trans hrun
    exact herror

theorem bind (hx : Ends x s mid error) (hf : ∀ a s', mid a s' → Ends (f a) s' ok' error) :
    Ends (x >>= f) s ok' error := by
  cases hx with
  | @of_ok a s' hrun hmid =>
    cases hf a s' hmid with
    | of_ok hrun' hok => exact .of_ok ((bind_of_ok hrun).trans hrun') hok
    | of_error hrun' herror => exact .of_error ((bind_of_ok hrun).trans hrun') herror
  | of_error hrun herror => exact .of_error (bind_of_error hrun) herror

/-- A first part that leaves the state alone. -/
theorem bind_ok (hx : x s = .ok a s) (hf : Ends (f a) s ok' error) :
    Ends (x >>= f) s ok' error := by
  have hfirst : Ends x s (fun b s' => b = a ∧ s' = s) error := of_ok hx ⟨rfl, rfl⟩
  refine bind hfirst ?_
  rintro b s' ⟨rfl, rfl⟩
  exact hf

theorem mono (h : Ends x s mid error) (hok : ∀ a s', mid a s' → ok a s')
    (herror : ∀ t s', error t s' → error' t s') : Ends x s ok error' := by
  cases h with
  | of_ok hrun hmid => exact .of_ok hrun (hok _ _ hmid)
  | of_error hrun h => exact .of_error hrun (herror _ _ h)

end Ends

/-! ## Accesses -/

/-- The address of an operand in memory. -/
def Registers.address? (r : Registers) (o : Operand) : Option Word :=
  match o.form with
  | .memory base offset => some (r.get base + offset)
  | _ => none

/-- The addresses at which an instruction accesses the stack, as far as it gets.  A `pop`
moves the stack pointer before it stores. -/
def Registers.addresses (r : Registers) (i : Instruction) : List Word :=
  match i.op with
  | .push => i.operands.filterMap r.address? ++ [r.rsp - 8]
  | .pop => r.rsp :: i.operands.filterMap { r with rsp := r.rsp + 8 }.address?
  | .ret => [r.rsp]
  | _ => i.operands.filterMap r.address?

/-- The stack has the same size, and the registers outside the language are the same. -/
structure State.Keeps (s s' : State) : Prop where
  size : s'.stack.size = s.stack.size
  others : s'.registers.others = s.registers.others

theorem State.Keeps.refl (s : State) : s.Keeps s := ⟨rfl, rfl⟩

theorem State.Keeps.trans {s s' s'' : State} (h : s.Keeps s') (h' : s'.Keeps s'') : s.Keeps s'' :=
  ⟨h'.size.trans h.size, h'.others.trans h.others⟩

/-- Why an instruction of the language fails. -/
inductive Fails (i : Instruction) (registers : Registers) (stack : Stack) : Trap → Prop where
  | access {address : Word} {t : Trap} : address ∈ registers.addresses i →
      stack.locate address = .error t → Fails i registers stack t
  | unwritable (operand : Text) : Fails i registers stack (.fault (.unwritable operand))
  | notARegister (op : Text) : Fails i registers stack (.fault (.notARegister op))
  | flagsUnset : Fails i registers stack (.fault .flagsUnset)
  | divisionByZero : Fails i registers stack (.fault .divisionByZero)
  | divisionOverflow : Fails i registers stack (.fault .divisionOverflow)

theorem Registers.others_write {r : Register} (h : r ∈ Register.wide ++ [.al]) (rs : Registers)
    (value : Word) : (rs.write r value).others = rs.others := by
  cases r with
  | other name => simp [Register.wide] at h
  | _ => rfl

section Access

variable (s : State)

theorem load_ends (address : Word) :
    Ends (load address) s (fun _ s' => s' = s)
      (fun t s' => s' = s ∧ s.stack.locate address = .error t) := by
  have hload : load address s = lift (s.stack.load address) s := rfl
  rw [Stack.load_eq] at hload
  cases hfound : s.stack.locate address with
  | error t =>
    rw [hfound] at hload
    exact .of_error hload ⟨rfl, rfl⟩
  | ok i =>
    rw [hfound] at hload
    exact .of_ok hload rfl

theorem store_ends (address value : Word) :
    Ends (store address value) s
      (fun _ s' => s'.registers = s.registers ∧ s'.stack.size = s.stack.size)
      (fun t s' => s' = s ∧ s.stack.locate address = .error t) := by
  refine Ends.bind_ok rfl ?_
  rw [Stack.store_eq]
  cases s.stack.locate address with
  | error t => exact Ends.of_error rfl ⟨rfl, rfl⟩
  | ok i => exact Ends.of_ok rfl ⟨rfl, Stack.size_writeBytes 8 _ _ _⟩

theorem push_ends (value : Word) :
    Ends (push value) s (fun _ s' => s.Keeps s')
      (fun t s' => s' = s ∧ s.stack.locate (s.registers.rsp - 8) = .error t) := by
  refine Ends.bind_ok rfl (Ends.bind (store_ends s _ value) ?_)
  rintro _ s' ⟨hregisters, hsize⟩
  refine Ends.of_ok rfl ⟨hsize, ?_⟩
  exact (Registers.others_write (by decide) _ _).trans (congrArg Registers.others hregisters)

theorem pop_ends :
    Ends pop s
      (fun _ s' => s' = { s with registers := { s.registers with rsp := s.registers.rsp + 8 } })
      (fun t s' => s' = s ∧ s.stack.locate s.registers.rsp = .error t) := by
  refine Ends.bind_ok rfl (Ends.bind (load_ends s _) ?_)
  rintro value s' rfl
  exact Ends.of_ok rfl rfl

variable {o : Operand} (ho : o.Fits false)

include ho

theorem read_ends :
    Ends (read o) s (fun _ s' => s' = s)
      (fun t s' => s' = s ∧
        ∃ address ∈ s.registers.address? o, s.stack.locate address = .error t) := by
  obtain ⟨form, label⟩ := o
  cases form with
  | register r => exact Ends.of_ok rfl rfl
  | immediate value => exact Ends.of_ok rfl rfl
  | memory base offset =>
    refine Ends.bind_ok rfl ((load_ends s _).mono (fun _ _ h => h) ?_)
    rintro t s' ⟨hs', hlocate⟩
    exact ⟨hs', _, rfl, hlocate⟩
  | label => cases ho
  | other kind => exact ho.elim

theorem write_ends (value : Word) :
    Ends (write o value) s (fun _ s' => s.Keeps s')
      (fun t s' => s' = s ∧ (t = .fault (.unwritable o.text) ∨
        ∃ address ∈ s.registers.address? o, s.stack.locate address = .error t)) := by
  obtain ⟨form, label⟩ := o
  cases form with
  | register r => exact Ends.of_ok rfl ⟨rfl, Registers.others_write ho.2 _ _⟩
  | immediate value => exact Ends.of_error rfl ⟨rfl, .inl rfl⟩
  | memory base offset =>
    refine Ends.bind_ok rfl ((store_ends s _ value).mono ?_ ?_)
    · rintro _ s' ⟨hregisters, hsize⟩
      exact ⟨hsize, congrArg Registers.others hregisters⟩
    · rintro t s' ⟨hs', hlocate⟩
      exact ⟨hs', .inr ⟨_, rfl, hlocate⟩⟩
  | label => cases ho
  | other kind => exact ho.elim

end Access

/-! ## Instructions -/

/-- An instruction that was started in `s` fails in a state that keeps to it. -/
def Failing (i : Instruction) (s : State) (t : Trap) (s' : State) : Prop :=
  s.Keeps s' ∧ Fails i s.registers s.stack t

section Operands

variable {α : Type} {i : Instruction} {s s' : State} {o : Operand}

/-- Where no `pop` moves the stack pointer, the address of an operand is one of those that
the instruction accesses. -/
theorem mem_addresses {r : Registers} (hop : i.op ∉ [.pop, .ret]) (ho : o ∈ i.operands) :
    ∀ address ∈ r.address? o, address ∈ r.addresses i := by
  intro address haddress
  have hmem : address ∈ i.operands.filterMap r.address? := List.mem_filterMap.2 ⟨o, ho, haddress⟩
  obtain ⟨op, operands⟩ := i
  cases op with
  | push => exact List.mem_append_left _ hmem
  | pop => exact absurd List.mem_cons_self hop
  | ret => exact absurd (List.mem_cons_of_mem _ List.mem_cons_self) hop
  | _ => exact hmem

theorem read_fails (ho : o.Fits false)
    (haddress : ∀ address ∈ s.registers.address? o, address ∈ s.registers.addresses i) :
    Ends (read o) s (fun _ s' => s' = s) (Failing i s) := by
  refine (read_ends s ho).mono (fun _ _ h => h) ?_
  rintro t s' ⟨rfl, address, hmem, hlocate⟩
  exact ⟨.refl _, .access (haddress address hmem) hlocate⟩

/-- A write in a state that the instruction has come to. -/
theorem write_fails (ho : o.Fits false) (hs' : s.Keeps s') (hstack : s'.stack = s.stack)
    (value : Word)
    (haddress : ∀ address ∈ s'.registers.address? o, address ∈ s.registers.addresses i) :
    Ends (write o value) s' (fun _ s'' => s.Keeps s'') (Failing i s) := by
  refine (write_ends s' ho value).mono (fun _ _ h => hs'.trans h) ?_
  rintro t s'' ⟨rfl, rfl | ⟨address, hmem, hlocate⟩⟩
  · exact ⟨hs', .unwritable _⟩
  · rw [hstack] at hlocate
    exact ⟨hs', .access (haddress address hmem) hlocate⟩

variable {index : Nat} {ok : α → State → Prop} (hi : i.Formed) (hjump : i.op.isJump = false)
  (ho : i.operands[index]? = some o)

include hi hjump ho

/-- An operand is read, and nothing has changed. -/
theorem read_operand_ends {f : Word → Exec α} (hop : i.op ∉ [.pop, .ret])
    (hf : ∀ value, Ends (f value) s ok (Failing i s)) :
    Ends (do f (← read (← operand i index))) s ok (Failing i s) := by
  have hmem : o ∈ i.operands := List.mem_of_getElem? ho
  have hoperand : operand i index s = .ok o s := by
    rw [operand, ho]
    rfl
  refine Ends.bind_ok hoperand (Ends.bind (read_fails (hjump ▸ hi.fits o hmem)
    (mem_addresses hop hmem)) ?_)
  rintro value s' rfl
  exact hf value

/-- An operand is written, and that is the end. -/
theorem write_operand_ends (hs' : s.Keeps s') (hstack : s'.stack = s.stack) (value : Word)
    (haddress : ∀ address ∈ s'.registers.address? o, address ∈ s.registers.addresses i)
    (next : Int) :
    Ends (do write (← operand i index) value; return next) s' (fun _ s'' => s.Keeps s'')
      (Failing i s) := by
  have hmem : o ∈ i.operands := List.mem_of_getElem? ho
  have hoperand : operand i index s' = .ok o s' := by
    rw [operand, ho]
    rfl
  exact Ends.bind_ok hoperand (Ends.bind (write_fails (hjump ▸ hi.fits o hmem) hs' hstack value
    haddress) fun _ _ h => Ends.of_ok rfl h)

end Operands

section Step

variable {i : Instruction} (s : State) {o o' : Operand}

theorem test_ends (c : Condition) : Ends (test c) s (fun _ s' => s' = s) (Failing i s) := by
  obtain ⟨registers, stack, flags, pc, steps⟩ := s
  cases flags with
  | none => exact Ends.of_error rfl ⟨.refl _, .flagsUnset⟩
  | some operands => exact Ends.of_ok rfl rfl

theorem arithmetic_ends {f : Arithmetic} (ho : o.Fits false) (ho' : o'.Fits false) :
    Ends (arithmetic f o o') s (fun _ s' => s.Keeps s') (Failing ⟨.arith f, [o, o']⟩ s) := by
  have haddress : ∀ o'' ∈ [o, o'], ∀ address ∈ s.registers.address? o'',
      address ∈ s.registers.addresses ⟨.arith f, [o, o']⟩ := fun o'' h =>
    mem_addresses (by simp) h
  unfold arithmetic
  split
  · refine Ends.bind (read_fails ho (haddress o (by simp))) ?_
    rintro lhs s rfl
    refine Ends.bind (read_fails ho' (haddress o' (by simp))) ?_
    rintro rhs s rfl
    exact write_fails ho (.refl s) rfl _ (haddress o (by simp))
  · exact Ends.of_error rfl ⟨.refl s, .notARegister _⟩

theorem divide_ends (ho : o.Fits false) :
    Ends (divide o) s (fun _ s' => s.Keeps s') (Failing ⟨.idiv, [o]⟩ s) := by
  refine Ends.bind (read_fails ho (mem_addresses (by simp) List.mem_cons_self)) ?_
  rintro divisor s rfl
  refine Ends.bind_ok rfl (Ends.bind_ok rfl ?_)
  by_cases hzero : divisor = 0
  · rw [if_pos hzero]
    exact Ends.of_error rfl ⟨.refl s, .divisionByZero⟩
  rw [if_neg hzero]
  by_cases hsign : s.registers.get .rdx ≠ if s.registers.get .rax < 0 then -1 else 0
  · rw [if_pos hsign]
    exact Ends.of_error rfl ⟨.refl s, .divisionOverflow⟩
  rw [if_neg hsign]
  split
  · exact Ends.of_error rfl ⟨.refl s, .divisionOverflow⟩
  · exact Ends.of_ok rfl ⟨rfl, rfl⟩

theorem step_ends (image : Image) (hi : i.Formed) :
    Ends (step image i) s (fun _ s' => s.Keeps s') (Failing i s) := by
  have hcount := hi.count
  have hfits := hi.fits
  have hknown := hi.known
  obtain ⟨op, operands⟩ := i
  refine Ends.bind_ok rfl ?_
  cases op with
  | push =>
    obtain ⟨o, rfl⟩ := List.length_eq_one_iff.1 hcount
    refine read_operand_ends hi rfl rfl (by simp) fun value => ?_
    refine Ends.bind ((push_ends s value).mono (fun _ _ h => h) ?_) fun _ _ h => Ends.of_ok rfl h
    rintro t s ⟨rfl, hlocate⟩
    exact ⟨.refl _, .access (List.mem_append_right _ List.mem_cons_self) hlocate⟩
  | pop =>
    obtain ⟨o, rfl⟩ := List.length_eq_one_iff.1 hcount
    refine Ends.bind ((pop_ends s).mono (fun _ _ h => h) ?_) ?_
    · rintro t s ⟨rfl, hlocate⟩
      exact ⟨.refl _, .access List.mem_cons_self hlocate⟩
    · rintro value s' rfl
      have hmoved :
          s.Keeps { s with registers := { s.registers with rsp := s.registers.rsp + 8 } } :=
        ⟨rfl, rfl⟩
      refine write_operand_ends (o := o) hi rfl rfl hmoved rfl value (fun address haddress => ?_) _
      exact List.mem_cons_of_mem _ (List.mem_filterMap.2 ⟨o, List.mem_cons_self, haddress⟩)
  | mov | movzx | movzb =>
    obtain ⟨o, o', rfl⟩ := List.length_eq_two.1 hcount
    refine read_operand_ends (o := o') hi rfl rfl (by simp) fun value => ?_
    exact write_operand_ends hi rfl rfl (.refl s) rfl value
      (mem_addresses (by simp) List.mem_cons_self) _
  | arith f =>
    obtain ⟨o, o', rfl⟩ := List.length_eq_two.1 hcount
    refine Ends.bind_ok rfl (Ends.bind_ok rfl ?_)
    exact Ends.bind (arithmetic_ends s (hfits o (by simp)) (hfits o' (by simp))) fun _ _ h =>
      Ends.of_ok rfl h
  | cqo => exact Ends.of_ok rfl ⟨rfl, rfl⟩
  | idiv =>
    obtain ⟨o, rfl⟩ := List.length_eq_one_iff.1 hcount
    exact Ends.bind_ok rfl (Ends.bind (divide_ends s (hfits o List.mem_cons_self)) fun _ _ h =>
      Ends.of_ok rfl h)
  | cmp =>
    obtain ⟨o, o', rfl⟩ := List.length_eq_two.1 hcount
    refine read_operand_ends hi rfl rfl (by simp) fun lhs => ?_
    refine read_operand_ends (o := o') hi rfl rfl (by simp) fun rhs => ?_
    exact Ends.of_ok rfl ⟨rfl, rfl⟩
  | set c =>
    obtain ⟨o, rfl⟩ := List.length_eq_one_iff.1 hcount
    refine Ends.bind (test_ends s c) ?_
    rintro holds s rfl
    exact write_operand_ends hi rfl rfl (.refl s) rfl _
      (mem_addresses (by simp) List.mem_cons_self) _
  | jmp =>
    obtain ⟨o, rfl⟩ := List.length_eq_one_iff.1 hcount
    exact Ends.of_ok rfl (.refl s)
  | jumpIf c =>
    obtain ⟨o, rfl⟩ := List.length_eq_one_iff.1 hcount
    refine Ends.bind (test_ends s c) ?_
    rintro holds s rfl
    cases holds with
    | _ => exact Ends.of_ok rfl (.refl s)
  | ret =>
    refine Ends.bind ((pop_ends s).mono (fun _ _ h => h) ?_) ?_
    · rintro t s ⟨rfl, hlocate⟩
      exact ⟨.refl _, .access List.mem_cons_self hlocate⟩
    · rintro value s' rfl
      exact Ends.of_ok rfl ⟨rfl, rfl⟩
  | unknown name => simp [Mnemonic.all, Condition.all] at hknown

/-- What an instruction of the language keeps, and why it fails. -/
theorem execute_ends (image : Image) (hi : i.Formed) :
    Ends (execute image i) s (fun _ s' => s.Keeps s') (Failing i s) :=
  Ends.bind (step_ends s image hi) fun _ _ h => Ends.of_ok rfl ⟨h.size, h.others⟩

end Step

end Machine
end WordC
