import WordC.Proofs.Machine.Limit
/-!
What an instruction that fails leaves behind.

`Atomic` executions change nothing unless they succeed, and every instruction is put
together so that whatever can fail comes first, with one exception: a `pop` takes its word
off the stack before it writes it.  If it cannot write it, the stack pointer has moved, and
nothing else has.  So the state that a run reports with a fault is the one in front of the
instruction, but for that pointer.
-/

namespace WordC
namespace Machine

open Asm

/-! ## Executions that fail without a trace -/

section

variable {α β : Type}

/-- The execution cannot fail. -/
def Succeeds (x : Exec α) : Prop := ∀ s, Ends x s (fun _ _ => True) (fun _ _ => False)

/-- The execution leaves the state alone, whether or not it fails. -/
def Observes (x : Exec α) : Prop := ∀ s, Ends x s (fun _ s' => s' = s) (fun _ s' => s' = s)

/-- The execution changes nothing unless it succeeds. -/
def Atomic (x : Exec α) : Prop := ∀ s, Ends x s (fun _ _ => True) (fun _ s' => s' = s)

namespace Succeeds

theorem pure (a : α) : Succeeds (pure a : Exec α) := fun _ => .of_ok rfl trivial

theorem modify (f : State → State) : Succeeds (modify f : Exec Unit) := fun _ => .of_ok rfl trivial

theorem bind {x : Exec α} {f : α → Exec β} (hx : Succeeds x) (hf : ∀ a, Succeeds (f a)) :
    Succeeds (x >>= f) :=
  fun s => Ends.bind (hx s) fun a s' _ => hf a s'

theorem atomic {x : Exec α} (h : Succeeds x) : Atomic x :=
  fun s => (h s).mono (fun _ _ h => h) fun _ _ h => h.elim

end Succeeds

namespace Observes

theorem pure (a : α) : Observes (pure a : Exec α) := fun _ => .of_ok rfl rfl

theorem throw (t : Trap) : Observes (throw t : Exec α) := fun _ => .of_error rfl rfl

theorem get : Observes (get : Exec State) := fun _ => .of_ok rfl rfl

/-- What comes after an observation is as atomic as by itself. -/
theorem andThen {x : Exec α} {f : α → Exec β} (hx : Observes x) (hf : ∀ a, Atomic (f a)) :
    Atomic (x >>= f) := by
  intro s
  refine Ends.bind (hx s) ?_
  rintro a s' rfl
  exact hf a s'

theorem bind {x : Exec α} {f : α → Exec β} (hx : Observes x) (hf : ∀ a, Observes (f a)) :
    Observes (x >>= f) := by
  intro s
  refine Ends.bind (hx s) ?_
  rintro a s' rfl
  exact hf a s'

theorem atomic {x : Exec α} (h : Observes x) : Atomic x :=
  fun s => (h s).mono (fun _ _ _ => trivial) fun _ _ h => h

theorem getRegister (r : Register) : Observes (getRegister r) := get.bind fun _ => pure _

theorem load (address : Word) : Observes (load address) :=
  fun s => (load_ends s address).mono (fun _ _ h => h) fun _ _ h => h.1

theorem read (o : Operand) : Observes (read o) := by
  rw [Machine.read]
  split
  · exact get.bind fun _ => pure _
  · exact pure _
  · exact (getRegister _).bind fun _ => load _
  · exact throw _
  · exact throw _

theorem operand (i : Instruction) (index : Nat) : Observes (operand i index) := by
  rw [Machine.operand]
  split
  · exact pure _
  · exact throw _

theorem test (c : Condition) : Observes (test c) := by
  refine get.bind fun s => ?_
  split
  · exact throw _
  · exact pure _

theorem target (image : Image) (i : Instruction) : Observes (target image i) :=
  (operand i 0).bind fun _ => pure _

end Observes

namespace Atomic

/-- Behind an atomic execution nothing may fail. -/
theorem andThen {x : Exec α} {f : α → Exec β} (hx : Atomic x) (hf : ∀ a, Succeeds (f a)) :
    Atomic (x >>= f) :=
  fun s => Ends.bind (hx s) fun a s' _ => (hf a s').mono (fun _ _ h => h) fun _ _ h => h.elim

theorem ite {c : Prop} [Decidable c] {x y : Exec α} (hx : Atomic x) (hy : Atomic y) :
    Atomic (if c then x else y) := by
  split
  · exact hx
  · exact hy

theorem push (value : Word) : Atomic (push value) :=
  fun s => (push_ends s value).mono (fun _ _ _ => trivial) fun _ _ h => h.1

theorem pop : Atomic pop :=
  fun s => (pop_ends s).mono (fun _ _ _ => trivial) fun _ _ h => h.1

theorem write (o : Operand) (value : Word) : Atomic (write o value) := by
  rw [Machine.write]
  split
  · exact (Succeeds.modify _).atomic
  · exact (Observes.getRegister _).andThen fun _ s =>
      (store_ends s _ value).mono (fun _ _ _ => trivial) fun _ _ h => h.1
  · exact (Observes.throw _).atomic
  · exact (Observes.throw _).atomic
  · exact (Observes.throw _).atomic

theorem arithmetic (f : Arithmetic) (target source : Operand) :
    Atomic (arithmetic f target source) := by
  rw [Machine.arithmetic]
  split
  · exact (Observes.read _).andThen fun _ => (Observes.read _).andThen fun _ => write _ _
  · exact (Observes.throw _).atomic

/-- The quotient and the remainder are stored when all checks are done. -/
theorem divide (source : Operand) : Atomic (divide source) := by
  refine (Observes.read _).andThen fun divisor => (Observes.getRegister _).andThen fun low =>
    (Observes.getRegister _).andThen fun high => ?_
  have hfault : ∀ f, Atomic (fault f : Exec Unit) := fun f => (Observes.throw (.fault f)).atomic
  refine ite (hfault _) (ite (hfault _) (ite (hfault _) ?_))
  exact ((Succeeds.modify _).bind fun _ => .modify _).atomic

theorem step {i : Instruction} (image : Image) (hpop : i.op ≠ .pop) : Atomic (step image i) := by
  obtain ⟨op, operands⟩ := i
  refine Observes.get.andThen fun s => ?_
  cases op with
  | push =>
    exact (Observes.operand _ _).andThen fun _ => (Observes.read _).andThen fun _ =>
      (push _).andThen fun _ => .pure _
  | pop => exact absurd rfl hpop
  | mov | movzx | movzb =>
    exact (Observes.operand _ _).andThen fun _ => (Observes.read _).andThen fun _ =>
      (Observes.operand _ _).andThen fun _ => (write _ _).andThen fun _ => .pure _
  | arith f =>
    exact (Observes.operand _ _).andThen fun _ => (Observes.operand _ _).andThen fun _ =>
      (arithmetic _ _ _).andThen fun _ => .pure _
  | cqo =>
    exact (Observes.getRegister _).andThen fun _ =>
      ((Succeeds.modify _).bind fun _ => .pure _).atomic
  | idiv => exact (Observes.operand _ _).andThen fun _ => (divide _).andThen fun _ => .pure _
  | cmp =>
    exact (Observes.operand _ _).andThen fun _ => (Observes.read _).andThen fun _ =>
      (Observes.operand _ _).andThen fun _ => (Observes.read _).andThen fun _ =>
      ((Succeeds.modify _).bind fun _ => .pure _).atomic
  | set c =>
    exact (Observes.test _).andThen fun _ => (Observes.operand _ _).andThen fun _ =>
      (write _ _).andThen fun _ => .pure _
  | jmp => exact (Observes.target _ _).atomic
  | jumpIf c =>
    refine (Observes.test _).andThen fun holds => ?_
    cases holds with
    | true => exact (Observes.target _ _).atomic
    | false => exact (Succeeds.pure _).atomic
  | ret => exact pop.andThen fun _ => .pure _
  | unknown name => exact (Observes.throw _).atomic

theorem execute {i : Instruction} (image : Image) (hpop : i.op ≠ .pop) :
    Atomic (execute image i) :=
  (step image hpop).andThen fun _ => .modify _

end Atomic

end

/-! ## The exception -/

/-- A word has been taken off the stack. -/
def State.popped (s : State) : State :=
  { s with registers := { s.registers with rsp := s.registers.rsp + 8 } }

/-- A value can be written to the operand. -/
def State.Takes (s : State) (o : Operand) : Prop :=
  match o.form with
  | .register _ => True
  | .memory base offset => ∃ i, s.stack.locate (s.registers.get base + offset) = .ok i
  | _ => False

/-- A `pop` takes off a word that it cannot write. -/
def Strands (i : Instruction) (s : State) : Prop :=
  i.op = .pop ∧ (∃ value, s.stack.load s.registers.rsp = .ok value) ∧
    ∃ o ∈ i.operands, ¬ s.popped.Takes o

theorem State.popped_ne (s : State) : s.popped ≠ s := by
  intro heq
  have hrsp : s.registers.rsp + 8 = s.registers.rsp :=
    congrArg (fun s : State => s.registers.rsp) heq
  rw [Int64.add_eq_left] at hrsp
  cases hrsp

theorem write_takes (o : Operand) (value : Word) (s : State) :
    Ends (write o value) s (fun _ _ => s.Takes o) (fun _ s' => s' = s ∧ ¬ s.Takes o) := by
  obtain ⟨form, label⟩ := o
  cases form with
  | register r => exact .of_ok rfl trivial
  | memory base offset =>
    refine Ends.bind_ok rfl (Ends.bind_ok rfl ?_)
    rw [Stack.store_eq]
    cases hlocate : s.stack.locate (s.registers.get base + offset) with
    | error t =>
      refine .of_error rfl ⟨rfl, ?_⟩
      rintro ⟨i, hi⟩
      cases hlocate.symm.trans hi
    | ok i => exact .of_ok rfl ⟨i, hlocate⟩
  | immediate value => exact .of_error rfl ⟨rfl, id⟩
  | label => exact .of_error rfl ⟨rfl, id⟩
  | other kind => exact .of_error rfl ⟨rfl, id⟩

theorem execute_pop_ends (image : Image) (o : Operand) (s : State) :
    Ends (execute image ⟨.pop, [o]⟩) s (fun _ _ => s.popped.Takes o)
      (fun _ s' => s' = s ∧ (∀ value, s.stack.load s.registers.rsp ≠ .ok value) ∨
        s' = s.popped ∧ (∃ value, s.stack.load s.registers.rsp = .ok value) ∧
          ¬ s.popped.Takes o) := by
  cases hload : s.stack.load s.registers.rsp with
  | error t =>
    have hpop : pop s = .error t s := by
      have hfirst : Machine.load s.registers.rsp s = .error t s := by
        have hlift : Machine.load s.registers.rsp s = lift (s.stack.load s.registers.rsp) s := rfl
        rw [hlift, hload]
        rfl
      exact (bind_of_ok rfl).trans (bind_of_error hfirst)
    have hexec : execute image ⟨.pop, [o]⟩ s = .error t s :=
      execute_of_step_error image ((bind_of_ok rfl).trans (bind_of_error hpop))
    exact .of_error hexec (.inl ⟨rfl, fun _ h => by cases h⟩)
  | ok value =>
    refine Ends.bind ?_ fun _ _ (htakes : s.popped.Takes o) => .of_ok rfl htakes
    have hpop : pop s = .ok value s.popped := pop_of_ok hload
    have hstep : step image ⟨.pop, [o]⟩ s =
        (do write o value; return s.pc + 1 : Exec Int) s.popped :=
      (bind_of_ok rfl).trans (bind_of_ok hpop)
    cases write_takes o value s.popped with
    | of_ok hwrite htakes => exact .of_ok (hstep.trans (bind_of_ok hwrite)) htakes
    | of_error hwrite hrefused =>
      obtain ⟨rfl, htakes⟩ := hrefused
      exact .of_error (hstep.trans (bind_of_error hwrite)) (.inr ⟨rfl, ⟨value, rfl⟩, htakes⟩)

/-- The state that an instruction which fails in `s` leaves behind. -/
inductive AfterFault (i : Instruction) (s : State) : State → Prop where
  | unchanged : ¬ Strands i s → AfterFault i s s
  | stranded : Strands i s → AfterFault i s s.popped

/-- What fails has changed nothing, unless it strands a word, and what strands a word fails. -/
theorem execute_afterFault (image : Image) {i : Instruction} (hi : i.Formed) (s : State) :
    Ends (execute image i) s (fun _ _ => ¬ Strands i s) (fun _ s' => AfterFault i s s') := by
  by_cases hpop : i.op = .pop
  · have hcount := hi.count
    obtain ⟨op, operands⟩ := i
    obtain rfl : op = .pop := hpop
    obtain ⟨o, rfl⟩ := List.length_eq_one_iff.1 hcount
    have hstrands : Strands ⟨.pop, [o]⟩ s ↔
        (∃ value, s.stack.load s.registers.rsp = .ok value) ∧ ¬ s.popped.Takes o := by
      simp [Strands]
    refine (execute_pop_ends image o s).mono (fun _ _ htakes h => (hstrands.1 h).2 htakes) ?_
    rintro t s' (⟨rfl, hload⟩ | ⟨rfl, hlost⟩)
    · refine .unchanged fun h => ?_
      obtain ⟨⟨value, hvalue⟩, -⟩ := hstrands.1 h
      exact hload value hvalue
    · exact .stranded (hstrands.2 hlost)
  · have hkept : ¬ Strands i s := fun h => hpop h.1
    refine (Atomic.execute image hpop s).mono (fun _ _ _ => hkept) ?_
    rintro t s' rfl
    exact .unchanged hkept

theorem AfterFault.eq_iff {i : Instruction} {s s' : State} (h : AfterFault i s s') :
    s' = s ↔ ¬ Strands i s := by
  cases h with
  | unchanged hkept => exact iff_of_true rfl hkept
  | stranded hlost => exact iff_of_false s.popped_ne (not_not_intro hlost)

/-! ## Faults of a run -/

/-- The state that a run reports with a fault. -/
theorem run_afterFault {image : Image} (himage : image.Admitted) {limit : Int} {entry : Text}
    {machine : State} {pc : Int} {p : Placed} {f : Fault}
    (h : (run image limit entry machine).outcome = .faulted pc p f) :
    ∃ s, Reaches image entry machine s ∧ s.pc = pc ∧ image.fetch? pc = some p ∧
      (f = .stepLimit ∧ (run image limit entry machine).state = s ∨
        f ≠ .stepLimit ∧
          AfterFault p.instruction s.counted (run image limit entry machine).state) := by
  cases hindex : image.index? entry with
  | none =>
    rw [run_undefined limit entry machine hindex] at h
    cases h
  | some start =>
    cases hpush : push State.haltAddress (machine.reset start) with
    | error t s =>
      cases t with
      | fault _ | crash _ =>
        simp only [run, hindex, hpush] at h
        cases h
    | ok _ called =>
      have hrun : run image limit entry machine = loop image limit.toNat [] called := by
        simp only [run, hindex, hpush]
      have hstart : Visits image called called := .start
      have hstops := stops_of_loop hstart limit.toNat []
      rw [← hrun, h] at hstops
      generalize (run image limit entry machine).state = last at hstops ⊢
      generalize ho : Outcome.faulted pc p f = o at hstops
      cases hstops with
      | returned _ _ | ranOff _ _ _ | crashed _ _ _ _ => cases ho
      | cutOff hvisits _ hp =>
        cases ho
        exact ⟨_, ⟨start, called, hindex, hpush, hvisits⟩, rfl, hp, .inl ⟨rfl, rfl⟩⟩
      | @faulted s _ _ _ hvisits _ hp hexec =>
        cases ho
        have hformed := formed_of_fetch? himage hp
        have hlimit : f ≠ .stepLimit := fun heq =>
          (steps_of_failure hexec).2 (congrArg Trap.fault heq)
        exact ⟨s, ⟨start, called, hindex, hpush, hvisits⟩, rfl, hp,
          .inr ⟨hlimit, (execute_afterFault image hformed s.counted).failed hexec⟩⟩

/-- A fault changes nothing but the stack pointer of a `pop`.  An instruction that was read
and fails leaves all as it was, unless it is a `pop` that has found its word and cannot
write it.  Such a one fails, with the word taken off.  A run that reports a fault names the
place of an instruction it has come to, and the state there: as it was in front of the
instruction if the limit has been reached, and otherwise with that instruction counted and
changed by no more than this. -/
theorem fault_strands_only {text : Text} {image : Image} (h : Image.parse text = .ok image) :
    (∀ p ∈ image.instructions.toList, ∀ s t s', execute image p.instruction s = .error t s' →
      (s' = s ∨ s' = s.popped) ∧ (s' = s ↔ ¬ Strands p.instruction s)) ∧
    (∀ p ∈ image.instructions.toList, ∀ s, Strands p.instruction s →
      ∃ t, execute image p.instruction s = .error t s.popped) ∧
    ∀ limit entry machine pc p f, (run image limit entry machine).outcome = .faulted pc p f →
      ∃ s, Reaches image entry machine s ∧ s.pc = pc ∧ image.fetch? pc = some p ∧
        (run image limit entry machine).state.pc = pc ∧
        (f = .stepLimit ∧ (run image limit entry machine).state = s ∨
          f ≠ .stepLimit ∧
            AfterFault p.instruction s.counted (run image limit entry machine).state) := by
  have himage := Image.admitted_of_parse h
  refine ⟨fun p hp s t s' hexec => ?_, fun p hp s hlost => ?_, ?_⟩
  · have hafter := (execute_afterFault image (himage.formed p hp) s).failed hexec
    refine ⟨?_, hafter.eq_iff⟩
    cases hafter with
    | unchanged _ => exact .inl rfl
    | stranded _ => exact .inr rfl
  · cases execute_afterFault image (himage.formed p hp) s with
    | of_ok _ hkept => exact absurd hlost hkept
    | of_error hexec hafter =>
      cases hafter with
      | unchanged hkept => exact absurd hlost hkept
      | stranded _ => exact ⟨_, hexec⟩
  · intro limit entry machine pc p f hfault
    obtain ⟨s, hreaches, rfl, hp, hstate⟩ := run_afterFault himage hfault
    refine ⟨s, hreaches, rfl, hp, ?_, hstate⟩
    generalize (run image limit entry machine).state = last at hstate
    rcases hstate with ⟨-, rfl⟩ | ⟨-, hafter⟩
    · rfl
    · cases hafter with
      | unchanged _ | stranded _ => rfl

/-- A `pop` into a number. -/
def strandingText : Text := utf8 "main:\n  pop 5\n"

def strandingImage : Image where
  instructions := #[⟨2, .pop, [.immediate 5]⟩]
  labels := [(utf8 "main", 0)]
  globals := []

theorem parse_strandingText : Image.parse strandingText = .ok strandingImage := by
  decide +kernel

/-- It fails in front of a word, and the stack pointer is past it. -/
theorem strandingText_moves_pointer :
    ∃ image p s t s', Image.parse strandingText = .ok image ∧ p ∈ image.instructions.toList ∧
      execute image p.instruction s = .error t s' ∧ s'.registers.rsp ≠ s.registers.rsp := by
  refine ⟨strandingImage, ⟨2, .pop, [.immediate 5]⟩,
    { State.fresh (.zeros 8) with registers := { Registers.zero with rsp := Stack.base } },
    .fault (.unwritable (utf8 "5")), _, parse_strandingText, List.mem_cons_self, rfl, by decide⟩

theorem strandingText_stranded :
    Image.parse strandingText = .ok strandingImage ∧
      (run strandingImage 1 (utf8 "main") (.fresh (.zeros 16))).outcome =
        .faulted 0 ⟨2, .pop, [.immediate 5]⟩ (.unwritable (utf8 "5")) ∧
      ∃ s, Reaches strandingImage (utf8 "main") (.fresh (.zeros 16)) s ∧
        AfterFault ⟨.pop, [.immediate 5]⟩ s.counted
          (run strandingImage 1 (utf8 "main") (.fresh (.zeros 16))).state := by
  have houtcome : (run strandingImage 1 (utf8 "main") (.fresh (.zeros 16))).outcome =
      .faulted 0 ⟨2, .pop, [.immediate 5]⟩ (.unwritable (utf8 "5")) := by decide +kernel
  obtain ⟨s, hreaches, -, -, -, ⟨hlimit, -⟩ | ⟨-, hafter⟩⟩ :=
    (fault_strands_only parse_strandingText).2.2 _ _ _ _ _ _ houtcome
  · cases hlimit
  · exact ⟨parse_strandingText, houtcome, s, hreaches, hafter⟩

end Machine
end WordC
