import WordC.Proofs.Asm.Assemble
import WordC.Proofs.Simulation.Value
/-!
The parts that the code of statements is made of.

Between statements the stack holds no values and `rax` holds the last value produced.
`Ready` says that a property holds of all such states at an index, and `Continues` that
it holds after a statement that has ended in some way.
-/

namespace WordC
namespace Simulation

open Asm Evaluation Machine
open Codegen hiding State push pop run

variable {r : Routine} {accepts : Except Stop Word → Prop} {P Q : State → Prop}

/-- The property holds of every state at the index between two statements. -/
def Ready (r : Routine) (P : State → Prop) (pos : Nat) (env : Env) : Prop :=
  ∀ rdi rdx flags, Good r P pos ⟨env.last, rdi, rdx, flags, env.store, []⟩

/-- The property holds at the index if the ending leads there, and an ending that leads
nowhere is accepted. -/
def Continues (r : Routine) (accepts : Except Stop Word → Prop) (P : State → Prop) (pos : Nat) :
    Ending → Prop
  | .next env => Ready r P pos env
  | .returned v => accepts (.ok v)
  | .stopped s => accepts (.error s)

namespace Continues

variable {pos pos' : Nat} {k : Ending}

theorem map (h : Continues r accepts P pos k)
    (hready : ∀ env, Ready r P pos env → Ready r Q pos' env) : Continues r accepts Q pos' k := by
  cases k with
  | next env => exact hready env h
  | returned v => exact h
  | stopped s => exact h

/-- What follows an abrupt ending does not matter. -/
theorem of_abrupt (hk : k.Abrupt) (h : Continues r accepts P pos k) :
    Continues r accepts Q pos' k := by
  cases k with
  | next env => exact hk.elim
  | returned v => exact h
  | stopped s => exact h

end Continues

section Expressions

variable (hP : Closed r.image (r.demand accepts) P) {e : Node} {env : Env} {pos : Nat}

include hP

/-- A value moved to `rax`. -/
theorem ready_taken (he : e.isValue = true) (hnames : ∀ x ∈ e.idents, x ∈ r.names)
    (hat : r.At pos (takenSites r.names.idxOf e))
    (herror : ∀ stop, value e env.store = .error stop → accepts (.error stop))
    (h : ∀ v σ, value e env.store = .ok (v, σ) →
      Ready r P (pos + width (takenSites r.names.idxOf e)) ⟨σ, v⟩) : Ready r P pos env := by
  intro rdi rdx flags
  obtain ⟨hvalue, hpop, -⟩ := Routine.at_append.1 hat
  refine good_value hP he hnames hvalue herror fun v σ hv rax rdi rdx flags => ?_
  refine good_does hP hpop rfl (does_pop_rax rfl) ?_
  have hnext := h v σ hv rdi rdx flags
  rw [takenSites, width_append, ← Nat.add_assoc] at hnext
  exact hnext

theorem ready_expression (he : e.isValue = true) (hnames : ∀ x ∈ e.idents, x ∈ r.names)
    (hat : r.At pos (takenSites r.names.idxOf e))
    (h : Continues r accepts P (pos + width (takenSites r.names.idxOf e)) (env.evaluate e)) :
    Ready r P pos env := by
  rw [Env.evaluate] at h
  refine ready_taken hP he hnames hat (fun stop hstop => ?_) fun v σ hv => ?_
  · rw [hstop] at h
    exact h
  · rw [hv] at h
    exact h

section Tests

variable {test : Option Node} (htest : Node.isClause test = true)
  (hnames : ∀ x ∈ Node.identsOptional test, x ∈ r.names) {label : Text} {target : Nat}
  (hlabel : r.image.index? label = some (target : Int))
  (hat : r.At pos (testSites r.names.idxOf label test)) {env' : Env}

include htest hnames hlabel hat

/-- A condition, and the jump that leaves when it is zero. -/
theorem ready_test
    (herror : ∀ stop, env.test test = .error stop → accepts (.error stop))
    (htrue : ∀ env', env.test test = .ok (true, env') →
      Ready r P (pos + width (testSites r.names.idxOf label test)) env')
    (hfalse : ∀ env', env.test test = .ok (false, env') → Ready r P target env') :
    Ready r P pos env := by
  cases test with
  | none => exact htrue env rfl
  | some e =>
    rw [Env.test] at herror htrue hfalse
    obtain ⟨htaken, hcmp, hjump, -⟩ := Routine.at_append.1 hat
    refine ready_taken hP htest hnames htaken (fun stop hstop => ?_) fun v σ hv rdi rdx flags => ?_
    · exact herror stop (by rw [hstop])
    · rw [hv] at htrue hfalse
      refine good_does hP hcmp rfl (does_cmp_immediate _ 0) ?_
      refine good_jumpIf hP rfl hjump rfl hlabel (fun hzero => ?_) fun hother => ?_
      · exact hfalse ⟨σ, v⟩ (by simp [show v = 0 from hzero]) rdi rdx _
      · have hnext := htrue ⟨σ, v⟩ (by simp [show v ≠ 0 from hother]) rdi rdx (some (v, 0))
        rw [testSites, width_append, ← Nat.add_assoc] at hnext
        exact hnext

theorem ready_test_true (h : env.test test = .ok (true, env'))
    (hready : Ready r P (pos + width (testSites r.names.idxOf label test)) env') :
    Ready r P pos env := by
  refine ready_test hP htest hnames hlabel hat (fun stop hstop => ?_) (fun env₁ htrue => ?_)
    fun env₁ hfalse => ?_
  · cases h.symm.trans hstop
  · cases h.symm.trans htrue
    exact hready
  · cases h.symm.trans hfalse

theorem ready_test_false (h : env.test test = .ok (false, env')) (hready : Ready r P target env') :
    Ready r P pos env := by
  refine ready_test hP htest hnames hlabel hat (fun stop hstop => ?_) (fun env₁ htrue => ?_)
    fun env₁ hfalse => ?_
  · cases h.symm.trans hstop
  · cases h.symm.trans htrue
  · cases h.symm.trans hfalse
    exact hready

theorem ready_test_error {stop : Stop} (h : env.test test = .error stop)
    (haccepts : accepts (.error stop)) : Ready r P pos env := by
  refine ready_test hP htest hnames hlabel hat (fun stop' hstop => ?_) (fun env₁ htrue => ?_)
    fun env₁ hfalse => ?_
  · cases h.symm.trans hstop
    exact haccepts
  · cases h.symm.trans htrue
  · cases h.symm.trans hfalse

end Tests

theorem ready_jmp {name : Text} {target : Nat}
    (hstands : r.Stands pos ⟨.jmp, [.target name]⟩ 0 none)
    (hname : r.image.index? name = some (target : Int)) (h : Ready r P target env) :
    Ready r P pos env :=
  fun rdi rdx flags => good_jmp hP hstands rfl hname (h rdi rdx flags)

end Expressions

/-! ## Leaving -/

/-- An epilogue stands at the index.  It may be one that no statement wrote. -/
structure Routine.Leaves (r : Routine) (pos : Nat) : Prop where
  holds : r.image.Holds pos epilogue
  site : ∀ k site, r.site? (pos + k : Nat) = some site → k < 3 →
    site.depth = 0 ∧ epilogue[k]? = some site.line

theorem leaves_of_at {pos : Nat} (hat : r.At pos (plain 0 epilogue)) : r.Leaves pos := by
  obtain ⟨hmov, hpop, hret, -⟩ := hat
  refine ⟨⟨hmov.fetch, hpop.fetch, hret.fetch, trivial⟩, fun k site hsite hk => ?_⟩
  obtain ⟨_, hmov'⟩ := hmov.site
  obtain ⟨_, hpop'⟩ := hpop.site
  obtain ⟨_, hret'⟩ := hret.site
  match k with
  | 0 =>
    obtain rfl := Option.some.inj (hmov'.symm.trans hsite)
    exact ⟨rfl, rfl⟩
  | 1 =>
    obtain rfl := Option.some.inj (hpop'.symm.trans hsite)
    exact ⟨rfl, rfl⟩
  | 2 =>
    obtain rfl := Option.some.inj (hret'.symm.trans hsite)
    exact ⟨rfl, rfl⟩
  | k + 3 => omega

/-- The stack pointer is at one of the words above the frame. -/
structure Unwound (r : Routine) (v rbp : Word) (word : Nat) (s : State) : Prop where
  rax : s.registers.rax = v
  rbx : s.registers.rbx = 0
  rcx : s.registers.rcx = 0
  rsi : s.registers.rsi = 0
  rbp : s.registers.rbp = rbp
  rsp : s.registers.rsp = Stack.below r.size word
  link : s.stack.load (Stack.below r.size 1) = .ok State.haltAddress
  caller : s.stack.load (Stack.below r.size 2) = .ok 0

section Epilogue

variable (hP : Closed r.image (r.demand accepts) P) {pos : Nat} (hleaves : r.Leaves pos) {s : State}

include hleaves in
/-- Nothing is demanded where an epilogue is under way. -/
theorem here_of_leaves {k : Nat} (hk : k = 1 ∨ k = 2) (hpc : s.pc = (pos + k : Nat)) :
    (r.demand accepts).here s := by
  refine ⟨fun site hsite hline => ?_, fun p hfetch hpush => ?_⟩
  · rw [hpc] at hsite
    have hsite' := (hleaves.site k site hsite (by omega)).2
    refine absurd (List.mem_iff_getElem?.2 ⟨k - 1, ?_⟩) hline
    rw [List.getElem?_tail, show k - 1 + 1 = k by omega, hsite']
  · obtain ⟨-, ⟨pop, hpop, hi₁⟩, ⟨ret, hret, hi₂⟩, -⟩ := hleaves.holds
    rw [hpc] at hfetch
    rcases hk with rfl | rfl
    · rw [Option.some.inj (hfetch.symm.trans hpop), hi₁] at hpush
      cases hpush
    · rw [Option.some.inj (hfetch.symm.trans hret), hi₂] at hpush
      cases hpush

include hP hleaves

theorem unwound_ret {v : Word} (hs : Unwound r v 0 1 s) (hpc : s.pc = (pos + 2 : Nat))
    (h : accepts (.ok v)) : P s := by
  obtain ⟨-, -, ⟨p, hfetch, hi⟩, -⟩ := hleaves.holds
  have hload : s.counted.stack.load s.counted.registers.rsp = .ok State.haltAddress := by
    change s.stack.load s.registers.rsp = _
    rw [hs.rsp, hs.link]
  have hexec := execute_ret r.image hload
  rw [← hpc] at hfetch
  rw [← hi] at hexec
  have hhere : (r.demand accepts).here s := here_of_leaves hleaves (.inr rfl) hpc
  refine hP.step (not_halted hpc) hfetch hhere hexec (r.kept_refl _ _) ?_
  refine hP.halt rfl ⟨?_, ?_, hs.rbp, hs.rbx, hs.rcx, hs.rsi⟩
  · change accepts (.ok s.registers.rax)
    rwa [hs.rax]
  · change s.registers.rsp + 8 = _
    rw [hs.rsp]
    exact Stack.below_add r.size 0 1

theorem unwound_pop {v rbp : Word} (hs : Unwound r v rbp 2 s) (hpc : s.pc = (pos + 1 : Nat))
    (h : accepts (.ok v)) : P s := by
  obtain ⟨-, ⟨p, hfetch, hi⟩, -, -⟩ := hleaves.holds
  have hload : s.counted.stack.load s.counted.registers.rsp = .ok 0 := by
    change s.stack.load s.registers.rsp = _
    rw [hs.rsp, hs.caller]
  have hexec := execute_pop r.image hload .rbp
  rw [← hpc] at hfetch
  rw [← hi] at hexec
  have hhere : (r.demand accepts).here s := here_of_leaves hleaves (.inl rfl) hpc
  refine hP.step (not_halted hpc) hfetch hhere hexec (r.kept_refl _ _) ?_
  refine unwound_ret hP hleaves ?_ ?_ h
  · refine ⟨hs.rax, hs.rbx, hs.rcx, hs.rsi, rfl, ?_, hs.link, hs.caller⟩
    change s.registers.rsp + 8 = _
    rw [hs.rsp]
    exact Stack.below_add r.size 1 1
  · change s.pc + 1 = _
    rw [hpc]
    rfl

/-- The epilogue halts the machine with the caller's registers. -/
theorem good_epilogue {c : Config} (hvalues : c.values = []) (h : accepts (.ok c.rax)) :
    Good r P pos c := by
  intro s hs hpc
  obtain ⟨⟨p, hfetch, hi⟩, -, -, -⟩ := hleaves.holds
  have hsize := r.size_ge
  have hexec := execute_mov r.image s.counted .rsp .rbp
  have hhere : (r.demand accepts).here s := by
    refine ⟨fun site hsite _ => ?_, fun _ _ _ => hs.clear⟩
    rw [hpc] at hsite
    have hrsp := hs.rsp
    rw [hvalues] at hrsp
    rw [(hleaves.site 0 site hsite (by omega)).1]
    exact ⟨hs.rbp, hrsp⟩
  rw [← hpc] at hfetch
  rw [← hi] at hexec
  refine hP.step (not_halted hpc) hfetch hhere hexec (r.kept_refl _ _) ?_
  refine unwound_pop hP hleaves (show Unwound r c.rax s.registers.rbp 2 _ from ?_) ?_ h
  · refine ⟨hs.rax, hs.rbx, hs.rcx, hs.rsi, rfl, hs.rbp, ?_, ?_⟩
    · change s.stack.load _ = _
      rw [hs.memory.load_has (hs.memory.has_iff.2 ⟨by omega, by omega⟩), hs.memory.link]
    · change s.stack.load _ = _
      rw [hs.memory.load_has (hs.memory.has_iff.2 ⟨by omega, by omega⟩), hs.memory.caller]
  · change s.pc + 1 = _
    rw [hpc]
    rfl

end Epilogue

end Simulation
end WordC
