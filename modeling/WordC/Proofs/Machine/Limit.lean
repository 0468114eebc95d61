import WordC.Proofs.Machine.ReadImage
/-!
The limit of a run only cuts it short.

`Completes` is the loop of a run as rules, with the limit compared to the counter of the
machine, so that a run which never ended would have no derivation.  No instruction,
whether or not the language knows it, touches the counter or fails for the limit.  Hence a
run under a greater limit takes the same turns, and goes on where the lesser limit stops
it.
-/

namespace WordC
namespace Machine

open Asm

/-! ## The counter of instructions -/

/-- The execution leaves the counter alone, and the limit is none of its faults. -/
def Uncounted {α : Type} (x : Exec α) : Prop :=
  ∀ s, Ends x s (fun _ s' => s'.steps = s.steps)
    (fun t s' => s'.steps = s.steps ∧ t ≠ .fault .stepLimit)

namespace Uncounted

variable {α β : Type}

theorem pure (a : α) : Uncounted (pure a : Exec α) := fun _ => .of_ok rfl rfl

theorem throw {t : Trap} (h : t ≠ .fault .stepLimit) : Uncounted (throw t : Exec α) :=
  fun _ => .of_error rfl ⟨rfl, h⟩

theorem modify {f : State → State} (h : ∀ s, (f s).steps = s.steps) :
    Uncounted (modify f : Exec Unit) :=
  fun s => .of_ok rfl (h s)

theorem bind {x : Exec α} {f : α → Exec β} (hx : Uncounted x) (hf : ∀ a, Uncounted (f a)) :
    Uncounted (x >>= f) := by
  intro s
  refine Ends.bind (hx s) fun a s' hs' => ?_
  refine (hf a s').mono (fun _ _ h => h.trans hs') ?_
  rintro t s'' ⟨h, ht⟩
  exact ⟨h.trans hs', ht⟩

theorem ite {c : Prop} [Decidable c] {x y : Exec α} (hx : Uncounted x) (hy : Uncounted y) :
    Uncounted (if c then x else y) := by
  split
  · exact hx
  · exact hy

/-- An execution may look at its state. -/
theorem get {f : State → Exec β} (hf : ∀ s, Uncounted (f s)) :
    Uncounted (MonadState.get >>= f) :=
  bind (fun _ => .of_ok rfl rfl) hf

theorem load (address : Word) : Uncounted (load address) := by
  intro s
  refine (load_ends s address).mono (fun _ _ h => by rw [h]) ?_
  rintro t s' ⟨rfl, hlocate⟩
  refine ⟨rfl, ?_⟩
  rcases Stack.locate_error_cases hlocate with rfl | rfl | rfl <;> simp

theorem store (address value : Word) : Uncounted (store address value) := by
  intro s
  refine Ends.bind_ok rfl ?_
  rw [Stack.store_eq]
  cases hlocate : s.stack.locate address with
  | error t =>
    refine .of_error rfl ⟨rfl, ?_⟩
    rcases Stack.locate_error_cases hlocate with rfl | rfl | rfl <;> simp
  | ok i => exact .of_ok rfl rfl

theorem getRegister (r : Register) : Uncounted (getRegister r) := get fun _ => pure _

theorem setRegister (r : Register) (value : Word) : Uncounted (setRegister r value) :=
  modify fun _ => rfl

theorem read (o : Operand) : Uncounted (read o) := by
  rw [Machine.read]
  split
  · exact get fun _ => pure _
  · exact pure _
  · exact (getRegister _).bind fun _ => load _
  · exact throw (by simp)
  · exact throw (by simp)

theorem write (o : Operand) (value : Word) : Uncounted (write o value) := by
  rw [Machine.write]
  split
  · exact setRegister _ _
  · exact (getRegister _).bind fun _ => store _ _
  · exact throw (by simp)
  · exact throw (by simp)
  · exact throw (by simp)

theorem push (value : Word) : Uncounted (push value) :=
  (getRegister _).bind fun _ => (store _ _).bind fun _ => setRegister _ _

theorem pop : Uncounted pop :=
  (getRegister _).bind fun _ => (load _).bind fun _ => (setRegister _ _).bind fun _ => pure _

theorem operand (i : Instruction) (index : Nat) : Uncounted (operand i index) := by
  rw [Machine.operand]
  split
  · exact pure _
  · exact throw (by simp)

theorem test (c : Condition) : Uncounted (test c) := by
  refine get fun s => ?_
  split
  · exact throw (by simp)
  · exact pure _

theorem arithmetic (f : Arithmetic) (target source : Operand) :
    Uncounted (arithmetic f target source) := by
  rw [Machine.arithmetic]
  split
  · exact (read _).bind fun _ => (read _).bind fun _ => write _ _
  · exact throw (by simp)

theorem divide (source : Operand) : Uncounted (divide source) := by
  refine (read _).bind fun divisor => (getRegister _).bind fun low =>
    (getRegister _).bind fun high => ?_
  refine ite (throw (by simp)) (ite (throw (by simp)) (ite (throw (by simp)) ?_))
  exact (setRegister _ _).bind fun _ => setRegister _ _

theorem target (image : Image) (i : Instruction) : Uncounted (target image i) :=
  (operand i 0).bind fun _ => pure _

theorem step (image : Image) (i : Instruction) : Uncounted (step image i) := by
  obtain ⟨op, operands⟩ := i
  refine get fun s => ?_
  cases op with
  | push =>
    exact (operand _ _).bind fun _ => (read _).bind fun _ => (push _).bind fun _ => pure _
  | pop => exact pop.bind fun _ => (operand _ _).bind fun _ => (write _ _).bind fun _ => pure _
  | mov | movzx | movzb =>
    exact (operand _ _).bind fun _ => (read _).bind fun _ => (operand _ _).bind fun _ =>
      (write _ _).bind fun _ => pure _
  | arith f =>
    exact (operand _ _).bind fun _ => (operand _ _).bind fun _ => (arithmetic _ _ _).bind fun _ =>
      pure _
  | cqo => exact (getRegister _).bind fun _ => (setRegister _ _).bind fun _ => pure _
  | idiv => exact (operand _ _).bind fun _ => (divide _).bind fun _ => pure _
  | cmp =>
    exact (operand _ _).bind fun _ => (read _).bind fun _ => (operand _ _).bind fun _ =>
      (read _).bind fun rhs => bind (modify fun _ => rfl) fun _ => pure _
  | set c =>
    exact (test _).bind fun _ => (operand _ _).bind fun _ => (write _ _).bind fun _ => pure _
  | jmp => exact target _ _
  | jumpIf c =>
    refine (test _).bind fun holds => ?_
    cases holds with
    | true => exact target _ _
    | false => exact pure _
  | ret => exact pop.bind fun _ => pure _
  | unknown name => exact throw (by simp)

theorem execute (image : Image) (i : Instruction) : Uncounted (execute image i) :=
  (step image i).bind fun _ => modify fun _ => rfl

end Uncounted

/-- Only the run itself counts instructions. -/
theorem steps_of_execute {image : Image} {i : Instruction} {s s' : State}
    (h : execute image i s.counted = .ok () s') : s'.steps = s.steps + 1 :=
  (Uncounted.execute image i s.counted).succeeded h

theorem steps_of_failure {image : Image} {i : Instruction} {s s' : State} {t : Trap}
    (h : execute image i s.counted = .error t s') :
    s'.steps = s.steps + 1 ∧ t ≠ .fault .stepLimit :=
  (Uncounted.execute image i s.counted).failed h

/-! ## Runs to their end -/

/-- From `s` a run under the limit comes to its end: the program counters that it traces, its
outcome and its last state. -/
inductive Completes (image : Image) (limit : Int) :
    State → List Int → Outcome → State → Prop where
  | returned {s : State} : s.Halted → Completes image limit s [] (.returned s.registers.rax) s
  | ranOff {s : State} : ¬ s.Halted → image.fetch? s.pc = none →
      Completes image limit s [] (.ranOff s.pc) s
  | cutOff {s : State} {p : Placed} : ¬ s.Halted → image.fetch? s.pc = some p →
      limit ≤ s.steps → Completes image limit s [] (.faulted s.pc p .stepLimit) s
  | faulted {s s' : State} {p : Placed} {f : Fault} : ¬ s.Halted → image.fetch? s.pc = some p →
      s.steps < limit → execute image p.instruction s.counted = .error (.fault f) s' →
      Completes image limit s [s.pc] (.faulted s.pc p f) s'
  | crashed {s s' : State} {p : Placed} {c : Crash} : ¬ s.Halted → image.fetch? s.pc = some p →
      s.steps < limit → execute image p.instruction s.counted = .error (.crash c) s' →
      Completes image limit s [s.pc] (.crashed c) s'
  | move {s s' last : State} {p : Placed} {trace : List Int} {o : Outcome} : ¬ s.Halted →
      image.fetch? s.pc = some p → s.steps < limit →
      execute image p.instruction s.counted = .ok () s' →
      Completes image limit s' trace o last → Completes image limit s (s.pc :: trace) o last

/-- Whatever it does, a run ends: every turn uses up one of the instructions that the limit
leaves. -/
theorem exists_completes (image : Image) (limit : Int) {n : Nat} (s : State)
    (hn : limit.toNat = s.steps + n) (trail : List Int) :
    ∃ trace, (loop image n trail s).trail = trace.reverse ++ trail ∧
      Completes image limit s trace (loop image n trail s).outcome (loop image n trail s).state := by
  induction n generalizing s trail with
  | zero =>
    have hturn := loop_turn image 0 trail s
    generalize loop image 0 trail s = r at hturn ⊢
    cases hturn with
    | returned hs => exact ⟨[], rfl, .returned hs⟩
    | ranOff hs hp => exact ⟨[], rfl, .ranOff hs hp⟩
    | cutOff hs hp => exact ⟨[], rfl, .cutOff hs hp (by omega)⟩
  | succ n ih =>
    have hroom : s.steps < limit := by omega
    have hturn := loop_turn image (n + 1) trail s
    generalize loop image (n + 1) trail s = r at hturn ⊢
    cases hturn with
    | returned hs => exact ⟨[], rfl, .returned hs⟩
    | ranOff hs hp => exact ⟨[], rfl, .ranOff hs hp⟩
    | faulted hs hp hexec => exact ⟨[s.pc], rfl, .faulted hs hp hroom hexec⟩
    | crashed hs hp hexec => exact ⟨[s.pc], rfl, .crashed hs hp hroom hexec⟩
    | @move _ p s' hs hp hexec =>
      have hsteps := steps_of_execute hexec
      obtain ⟨trace, htrail, hcompletes⟩ := ih s' (by omega) (s.pc :: trail)
      refine ⟨s.pc :: trace, ?_, .move hs hp hroom hexec hcompletes⟩
      rw [htrail, List.reverse_cons, List.append_assoc]
      rfl

theorem trail_suffix_loop (image : Image) (n : Nat) (trail : List Int) (s : State) :
    trail <:+ (loop image n trail s).trail := by
  obtain ⟨trace, htrail, -⟩ :=
    exists_completes image (s.steps + n : Nat) s (Int.toNat_natCast _) trail
  exact ⟨trace.reverse, htrail.symm⟩

namespace Completes

variable {image : Image} {limit limit' : Int} {s last : State} {trace : List Int} {o : Outcome}

/-- An instruction is traced once each time it is counted. -/
theorem steps_eq (h : Completes image limit s trace o last) :
    last.steps = s.steps + trace.length := by
  induction h with
  | returned _ | ranOff _ _ | cutOff _ _ _ => rfl
  | faulted _ _ _ hexec | crashed _ _ _ hexec => exact (steps_of_failure hexec).1
  | move _ _ _ hexec _ ih =>
    have hsteps := steps_of_execute hexec
    rw [List.length_cons]
    omega

theorem steps_le (h : Completes image limit s trace o last) (hs : s.steps ≤ limit.toNat) :
    last.steps ≤ limit.toNat := by
  induction h with
  | returned _ | ranOff _ _ | cutOff _ _ _ => exact hs
  | faulted _ _ hroom hexec | crashed _ _ hroom hexec =>
    have hsteps := (steps_of_failure hexec).1
    omega
  | move _ _ hroom hexec _ ih =>
    have hsteps := steps_of_execute hexec
    exact ih (by omega)

/-- A run that is cut off has counted up to its limit. -/
theorem le_steps (h : Completes image limit s trace o last) (ho : o.IsCutOff) :
    limit.toNat ≤ last.steps := by
  obtain ⟨pc, p, rfl⟩ := ho
  generalize ho : Outcome.faulted pc p .stepLimit = o at h
  induction h with
  | returned _ | ranOff _ _ | crashed _ _ _ _ => cases ho
  | cutOff _ _ hlimit => omega
  | faulted _ _ _ hexec =>
    cases ho
    exact absurd rfl (steps_of_failure hexec).2
  | move _ _ _ _ _ ih => exact ih ho

/-- Under a greater limit a run that was not cut off takes the same turns. -/
theorem loop_eq (h : Completes image limit s trace o last) (ho : ¬ o.IsCutOff)
    (hlimit : limit ≤ limit') (trail : List Int) :
    loop image (limit'.toNat - s.steps) trail s = ⟨o, last, trace.reverse ++ trail⟩ := by
  induction h generalizing trail with
  | returned hs => exact Turn.loop_eq (.returned hs)
  | ranOff hs hp => exact Turn.loop_eq (.ranOff hs hp)
  | cutOff _ _ _ => exact absurd ⟨_, _, rfl⟩ ho
  | @faulted s _ _ _ hs hp hroom hexec =>
    obtain ⟨n, hn⟩ : ∃ n, limit'.toNat - s.steps = n + 1 := ⟨limit'.toNat - s.steps - 1, by omega⟩
    rw [hn]
    exact Turn.loop_eq (.faulted hs hp hexec)
  | @crashed s _ _ _ hs hp hroom hexec =>
    obtain ⟨n, hn⟩ : ∃ n, limit'.toNat - s.steps = n + 1 := ⟨limit'.toNat - s.steps - 1, by omega⟩
    rw [hn]
    exact Turn.loop_eq (.crashed hs hp hexec)
  | @move s s' last p trace o hs hp hroom hexec _ ih =>
    have hsteps := steps_of_execute hexec
    have hn : limit'.toNat - s.steps = limit'.toNat - s'.steps + 1 := by omega
    rw [hn, loop_step hs hp hexec, ih ho, List.reverse_cons, List.append_assoc]
    rfl

/-- One that was cut off goes on from where it was stopped. -/
theorem loop_resumes (h : Completes image limit s trace o last) (ho : o.IsCutOff)
    (hlimit : limit ≤ limit') (trail : List Int) :
    loop image (limit'.toNat - s.steps) trail s =
      loop image (limit'.toNat - last.steps) (trace.reverse ++ trail) last := by
  induction h generalizing trail with
  | returned _ | ranOff _ _ | cutOff _ _ _ => rfl
  | faulted _ _ _ hexec =>
    obtain ⟨pc, p, heq⟩ := ho
    cases heq
    exact absurd rfl (steps_of_failure hexec).2
  | crashed _ _ _ _ =>
    obtain ⟨pc, p, heq⟩ := ho
    cases heq
  | @move s s' last p trace o hs hp hroom hexec _ ih =>
    have hsteps := steps_of_execute hexec
    have hn : limit'.toNat - s.steps = limit'.toNat - s'.steps + 1 := by omega
    rw [hn, loop_step hs hp hexec, ih ho, List.reverse_cons, List.append_assoc]
    rfl

end Completes

/-! ## Two limits -/

/-- What a run under the limit has in common with one under a greater limit. -/
structure CutShort (limit : Int) (r r' : Report) : Prop where
  allowed : r.state.steps ≤ limit.toNat
  /-- Every instruction is traced once. -/
  traced : r.trace.length = r.state.steps
  same : ¬ r.outcome.IsCutOff → r' = r
  exhausted : r.outcome.IsCutOff → r.state.steps = limit.toNat
  begins : r.outcome.IsCutOff → r.trace = r'.trace.take r.state.steps

theorem loop_cutShort (image : Image) {limit limit' : Int} (h : limit ≤ limit') {s : State}
    (hs : s.steps = 0) :
    CutShort limit (loop image limit.toNat [] s) (loop image limit'.toNat [] s) := by
  obtain ⟨trace, htrail, hcompletes⟩ :=
    exists_completes image limit s (by rw [hs, Nat.zero_add]) []
  have hlimit : limit'.toNat = limit'.toNat - s.steps := by rw [hs, Nat.sub_zero]
  have htrace : (loop image limit.toNat [] s).trace = trace := by
    rw [Report.trace, htrail, List.append_nil, List.reverse_reverse]
  have hcount := hcompletes.steps_eq
  rw [hs, Nat.zero_add] at hcount
  have hallowed := hcompletes.steps_le (by omega)
  refine ⟨hallowed, by rw [htrace, hcount], fun hcut => ?_, fun hcut => ?_, fun hcut => ?_⟩
  · rw [hlimit, hcompletes.loop_eq hcut h, ← htrail]
  · exact Nat.le_antisymm hallowed (hcompletes.le_steps hcut)
  · -- the longer run is resumed with the trail of the shorter one, and only adds to it
    obtain ⟨more, hmore⟩ := trail_suffix_loop image
      (limit'.toNat - (loop image limit.toNat [] s).state.steps) (trace.reverse ++ [])
      (loop image limit.toNat [] s).state
    rw [← hcompletes.loop_resumes hcut h, ← hlimit] at hmore
    have hlater : (loop image limit'.toNat [] s).trace = trace ++ more.reverse := by
      rw [Report.trace, ← hmore, List.append_nil, List.reverse_append, List.reverse_reverse]
    rw [hlater, hcount, List.take_left, htrace]

/-! ## Runs of an entry -/

/-- The call of an entry comes to its end with the report. -/
inductive Ended (image : Image) (limit : Int) (entry : Text) (machine : State) :
    Report → Prop where
  | undefined : image.index? entry = none →
      Ended image limit entry machine ⟨.undefinedEntry entry, machine, []⟩
  | noRoom {pc : Int} {f : Fault} {s : State} : image.index? entry = some pc →
      push State.haltAddress (machine.reset pc) = .error (.fault f) s →
      Ended image limit entry machine ⟨.noRoom f, s, []⟩
  | broken {pc : Int} {c : Crash} {s : State} : image.index? entry = some pc →
      push State.haltAddress (machine.reset pc) = .error (.crash c) s →
      Ended image limit entry machine ⟨.crashed c, s, []⟩
  | called {pc : Int} {s last : State} {trace : List Int} {o : Outcome} :
      image.index? entry = some pc → push State.haltAddress (machine.reset pc) = .ok () s →
      Completes image limit s trace o last →
      Ended image limit entry machine ⟨o, last, trace.reverse⟩

/-- A run that does not get to its first instruction. -/
theorem cutShort_of_idle (limit : Int) {r : Report} (hcut : ¬ r.outcome.IsCutOff)
    (hsteps : r.state.steps = 0) (htrail : r.trail = []) : CutShort limit r r where
  allowed := by
    rw [hsteps]
    exact Nat.zero_le _
  traced := by
    rw [Report.trace, htrail, hsteps]
    rfl
  same _ := rfl
  exhausted hcut' := absurd hcut' hcut
  begins hcut' := absurd hcut' hcut

/-- The limit only cuts runs short.  Every run ends, with at most as many instructions as it
is allowed, each of them traced once.  Unless it is cut off, it is the same under every
greater limit.  If it is, it has used up its limit, and a run under a greater limit starts
with the same instructions. -/
theorem run_cut_short (image : Image) (entry : Text) (stack : Stack) {limit limit' : Int}
    (h : limit ≤ limit') :
    Ended image limit entry (.fresh stack) (run image limit entry (.fresh stack)) ∧
      CutShort limit (run image limit entry (.fresh stack))
        (run image limit' entry (.fresh stack)) := by
  cases hindex : image.index? entry with
  | none =>
    rw [run_undefined limit entry _ hindex, run_undefined limit' entry _ hindex]
    exact ⟨.undefined hindex, cutShort_of_idle limit (by rintro ⟨_, _, ⟨⟩⟩) rfl rfl⟩
  | some pc =>
    have hpush := Uncounted.push State.haltAddress ((State.fresh stack).reset pc)
    rw [run, run, hindex]
    dsimp only
    cases hcall : push State.haltAddress ((State.fresh stack).reset pc) with
    | ok _ s =>
      have hs : s.steps = 0 := hpush.succeeded hcall
      obtain ⟨trace, htrail, hcompletes⟩ :=
        exists_completes image limit s (by rw [hs, Nat.zero_add]) []
      have hended := Ended.called hindex hcall hcompletes
      rw [← List.append_nil trace.reverse, ← htrail] at hended
      exact ⟨hended, loop_cutShort image h hs⟩
    | error t s =>
      have hs : s.steps = 0 := (hpush.failed hcall).1
      cases t with
      | fault f =>
        exact ⟨.noRoom hindex hcall, cutShort_of_idle limit (by rintro ⟨_, _, ⟨⟩⟩) hs rfl⟩
      | crash c =>
        exact ⟨.broken hindex hcall, cutShort_of_idle limit (by rintro ⟨_, _, ⟨⟩⟩) hs rfl⟩

/-- A loop that pushes a word each time round. -/
def spilling : Image where
  instructions := #[⟨2, .push, [.immediate 1]⟩, ⟨3, .jmp, [.target (utf8 "f")]⟩]
  labels := [(utf8 "f", 0)]
  globals := []

/-- Below the return address there is room for three words.  With six instructions allowed the
run is cut off where the fourth is to be pushed, and with seven it ends by itself. -/
theorem spilling_cut_short :
    (run spilling 6 (utf8 "f") (.fresh (.zeros 32))).outcome.IsCutOff ∧
      (run spilling 6 (utf8 "f") (.fresh (.zeros 32))).trace =
        (run spilling 9 (utf8 "f") (.fresh (.zeros 32))).trace.take 6 ∧
      run spilling 9 (utf8 "f") (.fresh (.zeros 32)) =
        run spilling 7 (utf8 "f") (.fresh (.zeros 32)) := by
  have hcut : (run spilling 6 (utf8 "f") (.fresh (.zeros 32))).outcome =
      .faulted 0 ⟨2, .push, [.immediate 1]⟩ .stepLimit := by decide +kernel
  have hfault : (run spilling 7 (utf8 "f") (.fresh (.zeros 32))).outcome =
      .faulted 0 ⟨2, .push, [.immediate 1]⟩ (.outsideStack 2147418104) := by decide +kernel
  have hsix := (run_cut_short spilling (utf8 "f") (.zeros 32) (show (6 : Int) ≤ 9 by decide)).2
  have hseven := (run_cut_short spilling (utf8 "f") (.zeros 32) (show (7 : Int) ≤ 9 by decide)).2
  have hbegins := hsix.begins ⟨_, _, hcut⟩
  rw [hsix.exhausted ⟨_, _, hcut⟩] at hbegins
  refine ⟨⟨_, _, hcut⟩, hbegins, hseven.same ?_⟩
  rw [hfault]
  rintro ⟨_, _, ⟨⟩⟩

end Machine
end WordC
