import WordC.Proofs.Machine.Execute
import WordC.Proofs.Simulation.Routine
/-!
What the instructions of compiled code do to a configuration.

`Does` says that an instruction takes every state of one configuration to a state of
another, or ends the run by a fault that the demand allows.  `Good` says of a point of
the code that a property holds of all states there, and `good_does` goes over one
instruction backwards.
-/

namespace WordC
namespace Simulation

open Asm Evaluation Machine
open Codegen hiding State push pop run

/-- The property holds of every state at the index that the configuration matches. -/
def Good (r : Routine) (P : State → Prop) (pos : Nat) (c : Config) : Prop :=
  ∀ s, Matches r c s → s.pc = pos → P s

/-- The instruction leads from the one configuration to the other, unless it ends the
run. -/
def Does (r : Routine) (accepts : Except Stop Word → Prop) (i : Instruction)
    (assigns : Option Text) (c c' : Config) : Prop :=
  ∀ s, Matches r c s →
    (∃ s', execute r.image i s = .ok () s' ∧ s'.pc = s.pc + 1 ∧ Matches r c' s' ∧
      r.Kept assigns s.stack s'.stack) ∨
    ∃ f, execute r.image i s = .error (.fault f) s ∧ (r.demand accepts).fault f

variable {r : Routine} {accepts : Except Stop Word → Prop} {P : State → Prop}

theorem not_halted {s : State} {pos : Nat} (h : s.pc = pos) : ¬ s.Halted := by
  intro hs
  have hpc : s.pc = -1 := hs
  omega

/-- The words above a configuration are all of the frame. -/
theorem Matches.clear {c : Config} {s : State} (h : Matches r c s) : r.Clear s := by
  have hlt := h.memory.topmost_lt
  have hsize := r.size_lt
  have hnext : s.registers.rsp - 8 = Stack.below r.size (r.topmost c.values.length + 1) := by
    rw [h.rsp]
    exact Stack.below_sub r.size _ 1
  rw [Routine.Clear, hnext, h.rbp, Stack.toInt_below hsize hlt, Stack.toInt_below hsize (by omega),
    Routine.topmost]
  omega

/-- The stack pointer is where the count has it. -/
theorem here_of_matches {c : Config} {s : State} {pos depth : Nat} {i : Instruction}
    {assigns : Option Text} (hstands : r.Stands pos i depth assigns) (h : Matches r c s)
    (hpc : s.pc = pos) (hdepth : depth = c.values.length) : (r.demand accepts).here s := by
  refine ⟨fun site hsite _ => ?_, fun _ _ _ => h.clear⟩
  obtain ⟨opens, hsite'⟩ := hstands.site
  rw [hpc, hsite'] at hsite
  rw [← Option.some.inj hsite, hdepth]
  exact ⟨h.rbp, h.rsp⟩

theorem good_does (hP : Closed r.image (r.demand accepts) P) {c c' : Config} {pos depth : Nat}
    {i : Instruction} {assigns : Option Text} (hstands : r.Stands pos i depth assigns)
    (hdepth : depth = c.values.length) (hdoes : Does r accepts i assigns c c')
    (h : Good r P (pos + 1) c') : Good r P pos c := by
  intro s hs hpc
  have hhere : (r.demand accepts).here s := here_of_matches hstands hs hpc hdepth
  obtain ⟨p, hfetch, rfl⟩ := hstands.fetch
  rw [← hpc] at hfetch
  rcases hdoes s.counted hs.counted with ⟨s', hexec, hnext, hs', hkept⟩ | ⟨f, hexec, hf⟩
  · refine hP.step (not_halted hpc) hfetch hhere hexec ?_ (h s' hs' ?_)
    · change r.Kept (r.assigned? s.pc) _ _
      rw [hpc, hstands.assigned?]
      exact hkept
    · rw [hnext]
      change s.pc + 1 = _
      rw [hpc]
      rfl
  · exact hP.fault (not_halted hpc) hfetch hhere hexec hf

/-- The instruction ends every run that reaches it. -/
theorem good_fault (hP : Closed r.image (r.demand accepts) P) {c : Config} {pos depth : Nat}
    {i : Instruction} {assigns : Option Text} (hstands : r.Stands pos i depth assigns)
    (hdepth : depth = c.values.length) {f : Fault}
    (hexec : ∀ s, Matches r c s → execute r.image i s = .error (.fault f) s)
    (h : (r.demand accepts).fault f) : Good r P pos c := by
  intro s hs hpc
  have hhere : (r.demand accepts).here s := here_of_matches hstands hs hpc hdepth
  obtain ⟨p, hfetch, rfl⟩ := hstands.fetch
  rw [← hpc] at hfetch
  exact hP.fault (not_halted hpc) hfetch hhere (hexec s.counted hs.counted) h

/-! ## Registers -/

section Registers

variable {c : Config} {i : Instruction}

/-- Only `rax` changes. -/
theorem does_rax {v : Word} (h : ∀ s, Matches r c s →
      execute r.image i s = .ok () (s.onward { s.registers with rax := v })) :
    Does r accepts i none c { c with rax := v } := by
  intro s hs
  refine .inl ⟨_, h s hs, rfl, ?_, r.kept_refl _ _⟩
  exact ⟨rfl, hs.rdi, hs.rdx, hs.flags, hs.rbx, hs.rcx, hs.rsi, hs.rbp, hs.rsp, hs.memory⟩

/-- Only the flags change. -/
theorem does_flags {flags : Option (Word × Word)} (h : ∀ s, Matches r c s →
      execute r.image i s = .ok () { s.onward s.registers with flags := flags }) :
    Does r accepts i none c { c with flags := flags } := by
  intro s hs
  refine .inl ⟨_, h s hs, rfl, ?_, r.kept_refl _ _⟩
  exact ⟨hs.rax, hs.rdi, hs.rdx, rfl, hs.rbx, hs.rcx, hs.rsi, hs.rbp, hs.rsp, hs.memory⟩

variable (c)

theorem does_mov_immediate (v : Word) :
    Does r accepts ⟨.mov, [.register .rax, .immediate v]⟩ none c { c with rax := v } :=
  does_rax fun s _ => execute_mov_immediate r.image s .rax v

theorem does_mov_base :
    Does r accepts ⟨.mov, [.register .rax, .register .rbp]⟩ none c
      { c with rax := Stack.below r.size 2 } := by
  refine does_rax fun s hs => ?_
  rw [← hs.rbp]
  exact execute_mov r.image s .rax .rbp

theorem does_sub_immediate (v : Word) :
    Does r accepts ⟨.arith .sub, [.register .rax, .immediate v]⟩ none c
      { c with rax := c.rax - v } := by
  refine does_rax fun s hs => ?_
  rw [← hs.rax]
  exact execute_arith_immediate r.image s .sub .rax v

theorem does_arith (f : Arithmetic) :
    Does r accepts ⟨.arith f, [.register .rax, .register .rdi]⟩ none c
      { c with rax := f.apply c.rax c.rdi } := by
  refine does_rax fun s hs => ?_
  rw [← hs.rax, ← hs.rdi]
  exact execute_arith r.image s f .rax .rdi

theorem does_movzx :
    Does r accepts ⟨.movzx, [.register .rax, .register .al]⟩ none c
      { c with rax := c.rax &&& 0xff } := by
  refine does_rax fun s hs => ?_
  rw [← hs.rax]
  exact execute_movzx r.image s .rax .al

theorem does_cmp :
    Does r accepts ⟨.cmp, [.register .rax, .register .rdi]⟩ none c
      { c with flags := some (c.rax, c.rdi) } := by
  refine does_flags fun s hs => ?_
  rw [← hs.rax, ← hs.rdi]
  exact execute_cmp r.image s .rax .rdi

theorem does_cmp_immediate (v : Word) :
    Does r accepts ⟨.cmp, [.register .rax, .immediate v]⟩ none c
      { c with flags := some (c.rax, v) } := by
  refine does_flags fun s hs => ?_
  rw [← hs.rax]
  exact execute_cmp_immediate r.image s .rax v

theorem does_cqo :
    Does r accepts ⟨.cqo, []⟩ none c { c with rdx := if c.rax < 0 then -1 else 0 } := by
  intro s hs
  refine .inl ⟨_, execute_cqo r.image s, rfl, ?_, r.kept_refl _ _⟩
  refine ⟨hs.rax, hs.rdi, ?_, hs.flags, hs.rbx, hs.rcx, hs.rsi, hs.rbp, hs.rsp, hs.memory⟩
  rw [← hs.rax]
  rfl

variable {c}

theorem does_set {a b : Word} (hflags : c.flags = some (a, b)) (condition : Condition) :
    Does r accepts ⟨.set condition, [.register .al]⟩ none c
      { c with
        rax := (c.rax &&& ~~~0xff) ||| ((if condition.holds a b then 1 else 0) &&& 0xff) } := by
  refine does_rax fun s hs => ?_
  rw [← hs.rax]
  exact execute_set r.image (hs.flags.trans hflags) condition

end Registers

/-! ## Memory -/

section Memory

variable {c : Config}

theorem does_push {o : Operand} {v : Word} (hread : ∀ s, Matches r c s → read o s = .ok v s)
    (hcount : c.values.length + 1 ≤ r.deepest) :
    Does r accepts ⟨.push, [o]⟩ none c { c with values := v :: c.values } := by
  intro s hs
  have hmemory := hs.memory
  have hrsp : s.registers.rsp - 8 = Stack.below r.size (r.topmost c.values.length + 1) := by
    rw [hs.rsp]
    exact Stack.below_sub r.size _ 1
  by_cases hroom : 8 * (r.topmost c.values.length + 1) ≤ r.size
  · have hhas := hmemory.has_iff.2 ⟨Nat.succ_pos _, hroom⟩
    have hstore := hmemory.store_has hhas v
    have hpushed := hmemory.push v hhas
    rw [← hrsp] at hstore
    refine .inl ⟨_, execute_push r.image (hread s hs) hstore, rfl, ?_, fun j hj => .inl ?_⟩
    · exact ⟨hs.rax, hs.rdi, hs.rdx, hs.flags, hs.rbx, hs.rcx, hs.rsi, hs.rbp, hrsp, hpushed⟩
    · have hlt := hmemory.topmost_lt
      rw [Routine.topmost] at hlt
      exact hmemory.load_put_ne hpushed hhas (by omega) (by omega) (by rw [Routine.topmost]; omega)
  · have hstore := hmemory.store_outside hmemory.topmost_lt (by omega) v
    rw [← hrsp] at hstore
    refine .inr ⟨_, execute_push_fault r.image (hread s hs) hstore, ?_⟩
    change r.size < 16 + 8 * (r.words + r.deepest)
    rw [Routine.topmost] at hroom
    omega

/-- The word on top is the last value, and behind it lie the others. -/
theorem Matches.top {s : State} (hs : Matches r c s) {v : Word} {rest : List Word}
    (hvalues : c.values = v :: rest) :
    s.stack.load s.registers.rsp = .ok v ∧
      s.registers.rsp + 8 = Stack.below r.size (r.topmost rest.length) ∧
      Memory r c.store rest s.stack := by
  have hmemory := hs.memory
  have hrsp := hs.rsp
  rw [hvalues] at hmemory hrsp
  obtain ⟨hhas, hword, -⟩ := hmemory.values
  refine ⟨?_, ?_, hmemory.pop⟩
  · rw [hrsp]
    exact (hmemory.load_has hhas).trans (congrArg Except.ok hword)
  · rw [hrsp]
    exact Stack.below_add r.size (r.topmost rest.length) 1

theorem does_pop_rax {v : Word} {rest : List Word} (hvalues : c.values = v :: rest) :
    Does r accepts ⟨.pop, [.register .rax]⟩ none c { c with rax := v, values := rest } := by
  intro s hs
  obtain ⟨hload, hrsp, hmemory⟩ := hs.top hvalues
  refine .inl ⟨_, execute_pop r.image hload .rax, rfl, ?_, r.kept_refl _ _⟩
  exact ⟨rfl, hs.rdi, hs.rdx, hs.flags, hs.rbx, hs.rcx, hs.rsi, hs.rbp, hrsp, hmemory⟩

theorem does_pop_rdi {v : Word} {rest : List Word} (hvalues : c.values = v :: rest) :
    Does r accepts ⟨.pop, [.register .rdi]⟩ none c { c with rdi := v, values := rest } := by
  intro s hs
  obtain ⟨hload, hrsp, hmemory⟩ := hs.top hvalues
  refine .inl ⟨_, execute_pop r.image hload .rdi, rfl, ?_, r.kept_refl _ _⟩
  exact ⟨hs.rax, rfl, hs.rdx, hs.flags, hs.rbx, hs.rcx, hs.rsi, hs.rbp, hrsp, hmemory⟩

/-- A local that lies outside the stack. -/
theorem cramped_of_place {x : Text} (hx : x ∈ r.names) (hroom : ¬ 8 * r.place x ≤ r.size) :
    8 * r.place x < 2 ^ 63 ∧ r.Cramped := by
  have hplace := Routine.place_lt hx
  have hwords := r.words_lt
  rw [Routine.Cramped]
  omega

theorem does_load {x : Text} (hx : x ∈ r.names) (hrax : c.rax = Stack.below r.size (r.place x)) :
    Does r accepts ⟨.mov, [.register .rax, .memory .rax 0]⟩ none c
      { c with rax := c.store x } := by
  intro s hs
  have hrax' := hs.rax.trans hrax
  by_cases hroom : 8 * r.place x ≤ r.size
  · have hhas : s.stack.Has (r.place x) := hs.memory.has_iff.2 ⟨Nat.succ_pos _, hroom⟩
    have hload := hs.memory.load_has hhas
    rw [← hrax', hs.memory.locals x hx hhas] at hload
    refine .inl ⟨_, execute_load r.image hload, rfl, ?_, r.kept_refl _ _⟩
    exact ⟨rfl, hs.rdi, hs.rdx, hs.flags, hs.rbx, hs.rcx, hs.rsi, hs.rbp, hs.rsp, hs.memory⟩
  · obtain ⟨hlt, hcramped⟩ := cramped_of_place hx hroom
    have hload := hs.memory.load_outside hlt (by omega)
    rw [← hrax'] at hload
    exact .inr ⟨_, execute_load_fault r.image hload, hcramped⟩

theorem does_store {x : Text} (hx : x ∈ r.names) (hrax : c.rax = Stack.below r.size (r.place x)) :
    Does r accepts ⟨.mov, [.memory .rax 0, .register .rdi]⟩ (some x) c
      { c with store := c.store.set x c.rdi } := by
  intro s hs
  have hrax' := hs.rax.trans hrax
  by_cases hroom : 8 * r.place x ≤ r.size
  · have hhas : s.stack.Has (r.place x) := hs.memory.has_iff.2 ⟨Nat.succ_pos _, hroom⟩
    have hassigned := hs.memory.assign hx hhas s.registers.rdi
    have hstore := hs.memory.store_has hhas s.registers.rdi
    rw [← hrax'] at hstore
    refine .inl ⟨_, execute_store r.image hstore, rfl, ?_, fun j hj => ?_⟩
    · rw [← hs.rdi]
      exact ⟨hs.rax, rfl, hs.rdx, hs.flags, hs.rbx, hs.rcx, hs.rsi, hs.rbp, hs.rsp, hassigned⟩
    · by_cases hslot : r.names.idxOf x = j
      · exact .inr ⟨x, rfl, hslot⟩
      · have hwords := r.words_lt
        refine .inl (hs.memory.load_put_ne hassigned hhas (by omega) (by omega) ?_)
        rw [Routine.place]
        omega
  · obtain ⟨hlt, hcramped⟩ := cramped_of_place hx hroom
    have hstore := hs.memory.store_outside hlt (by omega) s.registers.rdi
    rw [← hrax'] at hstore
    exact .inr ⟨_, execute_store_fault r.image hstore, hcramped⟩

end Memory

/-! ## Division -/

section Division

variable {c : Config}

/-- Division of `rax`, whose sign fills `rdx`. -/
theorem does_idiv (hsign : c.rdx = if c.rax < 0 then -1 else 0) (hzero : c.rdi ≠ 0)
    (hfits : ¬ (c.rax = Int64.minValue ∧ c.rdi = -1)) :
    Does r accepts ⟨.idiv, [.register .rdi]⟩ none c
      { c with rax := c.rax / c.rdi, rdx := c.rax % c.rdi } := by
  intro s hs
  rw [← hs.rdx, ← hs.rax] at hsign
  rw [← hs.rdi] at hzero
  rw [← hs.rdi, ← hs.rax] at hfits
  rw [← hs.rdi, ← hs.rax]
  refine .inl ⟨_, execute_idiv r.image hzero hsign hfits, rfl, ?_, r.kept_refl _ _⟩
  exact ⟨rfl, rfl, rfl, hs.flags, hs.rbx, hs.rcx, hs.rsi, hs.rbp, hs.rsp, hs.memory⟩

variable {pos depth : Nat}

theorem good_idiv_zero (hP : Closed r.image (r.demand accepts) P)
    (hstands : r.Stands pos ⟨.idiv, [.register .rdi]⟩ depth none) (hdepth : depth = c.values.length)
    (hzero : c.rdi = 0) (h : accepts (.error .divisionByZero)) : Good r P pos c := by
  refine good_fault hP hstands hdepth (f := .divisionByZero) (fun s hs => ?_) h
  exact execute_idiv_zero r.image (hs.rdi.trans hzero)

theorem good_idiv_overflow (hP : Closed r.image (r.demand accepts) P)
    (hstands : r.Stands pos ⟨.idiv, [.register .rdi]⟩ depth none) (hdepth : depth = c.values.length)
    (hsign : c.rdx = if c.rax < 0 then -1 else 0) (hmin : c.rax = Int64.minValue)
    (hminus : c.rdi = -1) (h : accepts (.error .divisionOverflow)) : Good r P pos c := by
  refine good_fault hP hstands hdepth (f := .divisionOverflow) (fun s hs => ?_) h
  rw [← hs.rdx, ← hs.rax] at hsign
  exact execute_idiv_overflow r.image (hs.rax.trans hmin) (hs.rdi.trans hminus) hsign

end Division

/-! ## Jumps -/

section Jumps

variable {c : Config} {pos depth : Nat} {assigns : Option Text} {name : Text} {target : Nat}

/-- A jump leads from one index to another and changes nothing else. -/
theorem good_jump (hP : Closed r.image (r.demand accepts) P) {i : Instruction}
    (hstands : r.Stands pos i depth assigns) (hdepth : depth = c.values.length) {next : Nat}
    (hexec : ∀ s, Matches r c s → s.pc = pos → execute r.image i s = .ok () { s with pc := next })
    (h : Good r P next c) : Good r P pos c := by
  intro s hs hpc
  obtain ⟨p, hfetch, rfl⟩ := hstands.fetch
  rw [← hpc] at hfetch
  refine hP.step (not_halted hpc) hfetch (here_of_matches hstands hs hpc hdepth)
    (hexec s.counted hs.counted hpc) (r.kept_refl _ _) (h _ ?_ rfl)
  exact ⟨hs.rax, hs.rdi, hs.rdx, hs.flags, hs.rbx, hs.rcx, hs.rsi, hs.rbp, hs.rsp, hs.memory⟩

theorem good_jmp (hP : Closed r.image (r.demand accepts) P)
    (hstands : r.Stands pos ⟨.jmp, [.target name]⟩ depth assigns)
    (hdepth : depth = c.values.length) (hname : r.image.index? name = some (target : Int))
    (h : Good r P target c) : Good r P pos c :=
  good_jump hP hstands hdepth (fun s _ _ => execute_jmp r.image s hname) h

/-- The jump behind `cmp rax, 0`. -/
theorem good_jumpIf (hP : Closed r.image (r.demand accepts) P) {v : Word}
    (hflags : c.flags = some (v, 0))
    (hstands : r.Stands pos ⟨.jumpIf .e, [.target name]⟩ depth assigns)
    (hdepth : depth = c.values.length) (hname : r.image.index? name = some (target : Int))
    (hzero : v = 0 → Good r P target c) (hother : v ≠ 0 → Good r P (pos + 1) c) :
    Good r P pos c := by
  by_cases hv : v = 0
  · refine good_jump hP hstands hdepth (fun s hs _ => ?_) (hzero hv)
    exact execute_jumpIf_taken r.image (hs.flags.trans hflags) (by simp [Condition.holds, hv]) hname
  · refine good_jump hP hstands hdepth (fun s hs hpc => ?_) (hother hv)
    have hexec := execute_jumpIf_passed r.image (hs.flags.trans hflags)
      (show Condition.holds .e v 0 = false by simp [Condition.holds, hv]) name
    rw [hexec, State.onward, hpc]
    rfl

end Jumps

end Simulation
end WordC
