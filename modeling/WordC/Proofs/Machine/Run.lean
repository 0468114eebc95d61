import WordC.Machine.Run
/-!
What every run from a state does.

A demand says what has to hold at every instruction, across every instruction
that is carried out, of every fault and of the state in which the machine halts.
`Safe` follows the loop of a run and says that the demand is met for a number of
instructions; running out of them is no offence.  `Closed` collects the three ways
to show a property of states backwards, from what an instruction leaves.  Being safe
for a given number of instructions is such a property, and so is halting.
-/

namespace WordC
namespace Machine

open Asm

/-- The machine is back at the return address of the entry. -/
def State.Halted (s : State) : Prop := s.pc = haltAddress.toInt

instance (s : State) : Decidable s.Halted := inferInstanceAs (Decidable (_ = _))

/-- The state in which the next instruction is executed. -/
def State.counted (s : State) : State := { s with steps := s.steps + 1 }

/-- One instruction is carried out. -/
def Moves (image : Image) (s s' : State) : Prop :=
  ¬ s.Halted ∧ ∃ p, image.fetch? s.pc = some p ∧ execute image p.instruction s.counted = .ok () s'

/-- The states of the runs from a state, with any limit. -/
inductive Visits (image : Image) (start : State) : State → Prop where
  | start : Visits image start start
  | move {s s' : State} : Visits image start s → Moves image s s' → Visits image start s'

structure Demand where
  /-- At every instruction. -/
  here : State → Prop
  /-- From one state to the next. -/
  move : State → State → Prop
  fault : Fault → Prop
  halt : State → Prop

/-- The demand is met by every run from the state with at most so many
instructions. -/
def Safe (image : Image) (d : Demand) : Nat → State → Prop
  | budget, s =>
    if s.Halted then d.halt s
    else
      match image.fetch? s.pc with
      | none => False
      | some p =>
        d.here s ∧
          match budget with
          | 0 => True
          | budget + 1 =>
            match execute image p.instruction s.counted with
            | .ok () s' => d.move s s' ∧ Safe image d budget s'
            | .error (.fault f) _ => d.fault f
            | .error (.crash _) _ => False

/-- A property of states that holds where the demand is met by the next
instruction and the property holds after it. -/
structure Closed (image : Image) (d : Demand) (P : State → Prop) : Prop where
  step {s s' : State} {p : Placed} : ¬ s.Halted → image.fetch? s.pc = some p → d.here s →
    execute image p.instruction s.counted = .ok () s' → d.move s s' → P s' → P s
  fault {s s' : State} {p : Placed} {f : Fault} : ¬ s.Halted → image.fetch? s.pc = some p →
    d.here s → execute image p.instruction s.counted = .error (.fault f) s' → d.fault f → P s
  halt {s : State} : s.Halted → d.halt s → P s

variable {image : Image} {d : Demand} {s s' start : State} {p : Placed}

namespace Safe

theorem halt {n : Nat} (hs : s.Halted) (h : d.halt s) : Safe image d n s := by
  rw [Safe, if_pos hs]
  exact h

theorem zero (hs : ¬ s.Halted) (hp : image.fetch? s.pc = some p) (hhere : d.here s) :
    Safe image d 0 s := by
  rw [Safe, if_neg hs, hp]
  exact ⟨hhere, trivial⟩

theorem step {n : Nat} (hs : ¬ s.Halted) (hp : image.fetch? s.pc = some p) (hhere : d.here s)
    (hexec : execute image p.instruction s.counted = .ok () s') (hmove : d.move s s')
    (h : Safe image d n s') : Safe image d (n + 1) s := by
  rw [Safe, if_neg hs, hp]
  simp only [hexec]
  exact ⟨hhere, hmove, h⟩

theorem fault {n : Nat} {f : Fault} (hs : ¬ s.Halted) (hp : image.fetch? s.pc = some p)
    (hhere : d.here s) (hexec : execute image p.instruction s.counted = .error (.fault f) s')
    (h : d.fault f) : Safe image d n s := by
  cases n with
  | zero => exact zero hs hp hhere
  | succ n =>
    rw [Safe, if_neg hs, hp]
    simp only [hexec]
    exact ⟨hhere, h⟩

/-- What a safe state can do: halt, or carry out an instruction or fail at it as far as
instructions are left. -/
theorem inversion {n : Nat} (h : Safe image d n s) :
    (s.Halted ∧ d.halt s) ∨
      (¬ s.Halted ∧ ∃ p, image.fetch? s.pc = some p ∧ d.here s ∧ ∀ m, n = m + 1 →
        (∃ s', execute image p.instruction s.counted = .ok () s' ∧ d.move s s' ∧
          Safe image d m s') ∨
        ∃ f s', execute image p.instruction s.counted = .error (.fault f) s' ∧ d.fault f) := by
  rw [Safe] at h
  split at h
  · next hs => exact .inl ⟨hs, h⟩
  · next hs =>
    split at h
    · exact h.elim
    · next p hp =>
      refine .inr ⟨hs, p, hp, h.1, fun m hm => ?_⟩
      subst hm
      have hrest := h.2
      dsimp only at hrest
      split at hrest
      · next s' hexec => exact .inl ⟨s', hexec, hrest⟩
      · next f s' hexec => exact .inr ⟨f, s', hexec, hrest⟩
      · exact hrest.elim

/-- Fewer instructions are safe too. -/
theorem pred {n : Nat} (h : Safe image d (n + 1) s) : Safe image d n s := by
  induction n generalizing s with
  | zero =>
    rcases h.inversion with ⟨hs, hhalt⟩ | ⟨hs, p, hp, hhere, -⟩
    · exact halt hs hhalt
    · exact zero hs hp hhere
  | succ n ih =>
    rcases h.inversion with ⟨hs, hhalt⟩ | ⟨hs, p, hp, hhere, hnext⟩
    · exact halt hs hhalt
    · rcases hnext (n + 1) rfl with ⟨s', hexec, hmove, hs'⟩ | ⟨f, s', hexec, hf⟩
      · exact step hs hp hhere hexec hmove (ih hs')
      · exact fault hs hp hhere hexec hf

theorem closed (n : Nat) : Closed image d (Safe image d n) where
  step hs hp hhere hexec hmove h := (step hs hp hhere hexec hmove h).pred
  fault hs hp hhere hexec h := fault hs hp hhere hexec h
  halt hs h := halt hs h

theorem here {n : Nat} (h : Safe image d n s) (hs : ¬ s.Halted) : d.here s := by
  rcases h.inversion with ⟨hhalted, -⟩ | ⟨-, p, -, hhere, -⟩
  · exact absurd hhalted hs
  · exact hhere

theorem of_moves {n : Nat} (h : Safe image d (n + 1) s) (hmoves : Moves image s s') :
    d.move s s' ∧ Safe image d n s' := by
  obtain ⟨hs, p, hp, hexec⟩ := hmoves
  rcases h.inversion with ⟨hhalted, -⟩ | ⟨-, p', hp', -, hnext⟩
  · exact absurd hhalted hs
  · cases hp.symm.trans hp'
    rcases hnext n rfl with ⟨s₁, hexec', hmove, hs₁⟩ | ⟨f, s₁, hexec', -⟩
    · cases hexec.symm.trans hexec'
      exact ⟨hmove, hs₁⟩
    · cases hexec.symm.trans hexec'

theorem of_visits (h : ∀ n, Safe image d n start) (hvisits : Visits image start s) :
    ∀ n, Safe image d n s := by
  induction hvisits with
  | start => exact h
  | move _ hmoves ih => exact fun n => ((ih (n + 1)).of_moves hmoves).2

end Safe

/-! ## Outcomes -/

/-- The run was cut off by its limit. -/
def Outcome.IsCutOff (o : Outcome) : Prop := ∃ pc p, o = .faulted pc p .stepLimit

/-- What a run does at a state: it ends there, or it goes on from the next one. -/
inductive Turn (image : Image) (trail : List Int) (s : State) : Nat → Report → Prop where
  | returned {n : Nat} : s.Halted → Turn image trail s n ⟨.returned s.registers.rax, s, trail⟩
  | ranOff {n : Nat} : ¬ s.Halted → image.fetch? s.pc = none →
      Turn image trail s n ⟨.ranOff s.pc, s, trail⟩
  | cutOff {p : Placed} : ¬ s.Halted → image.fetch? s.pc = some p →
      Turn image trail s 0 ⟨.faulted s.pc p .stepLimit, s, trail⟩
  | move {n : Nat} {p : Placed} {s' : State} : ¬ s.Halted → image.fetch? s.pc = some p →
      execute image p.instruction s.counted = .ok () s' →
      Turn image trail s (n + 1) (loop image n (s.pc :: trail) s')
  | faulted {n : Nat} {p : Placed} {f : Fault} {s' : State} : ¬ s.Halted →
      image.fetch? s.pc = some p → execute image p.instruction s.counted = .error (.fault f) s' →
      Turn image trail s (n + 1) ⟨.faulted s.pc p f, s', s.pc :: trail⟩
  | crashed {n : Nat} {p : Placed} {c : Crash} {s' : State} : ¬ s.Halted →
      image.fetch? s.pc = some p → execute image p.instruction s.counted = .error (.crash c) s' →
      Turn image trail s (n + 1) ⟨.crashed c, s', s.pc :: trail⟩

theorem loop_turn (image : Image) (n : Nat) (trail : List Int) (s : State) :
    Turn image trail s n (loop image n trail s) := by
  rw [loop]
  split
  · next hs => exact .returned hs
  · next hs =>
    split
    · next hp => exact .ranOff hs hp
    · next p hp =>
      cases n with
      | zero => exact .cutOff hs hp
      | succ n =>
        dsimp only
        split
        · next s' hexec => exact .move hs hp hexec
        · next f s' hexec => exact .faulted hs hp hexec
        · next c s' hexec => exact .crashed hs hp hexec

/-- The cases exclude one another. -/
theorem Turn.loop_eq {n : Nat} {trail : List Int} {r : Report} (h : Turn image trail s n r) :
    loop image n trail s = r := by
  rw [loop]
  cases h with
  | returned hs => exact if_pos hs
  | ranOff hs hp =>
    rw [hp]
    exact if_neg hs
  | cutOff hs hp =>
    rw [hp]
    exact if_neg hs
  | @move n p s' hs hp hexec =>
    have hexec' : execute image p.instruction { s with steps := s.steps + 1 } = .ok () s' := hexec
    rw [hp]
    refine (if_neg hs).trans ?_
    simp only [hexec']
  | @faulted n p f s' hs hp hexec =>
    have hexec' : execute image p.instruction { s with steps := s.steps + 1 } =
      .error (.fault f) s' := hexec
    rw [hp]
    refine (if_neg hs).trans ?_
    simp only [hexec']
  | @crashed n p c s' hs hp hexec =>
    have hexec' : execute image p.instruction { s with steps := s.steps + 1 } =
      .error (.crash c) s' := hexec
    rw [hp]
    refine (if_neg hs).trans ?_
    simp only [hexec']

theorem loop_halted (hs : s.Halted) (n : Nat) (trail : List Int) :
    loop image n trail s = ⟨.returned s.registers.rax, s, trail⟩ :=
  Turn.loop_eq (.returned hs)

theorem loop_zero (hs : ¬ s.Halted) (hp : image.fetch? s.pc = some p) (trail : List Int) :
    loop image 0 trail s = ⟨.faulted s.pc p .stepLimit, s, trail⟩ :=
  Turn.loop_eq (.cutOff hs hp)

theorem loop_step (hs : ¬ s.Halted) (hp : image.fetch? s.pc = some p)
    (hexec : execute image p.instruction s.counted = .ok () s') (n : Nat) (trail : List Int) :
    loop image (n + 1) trail s = loop image n (s.pc :: trail) s' :=
  Turn.loop_eq (.move hs hp hexec)

theorem loop_fault {f : Fault} (hs : ¬ s.Halted) (hp : image.fetch? s.pc = some p)
    (hexec : execute image p.instruction s.counted = .error (.fault f) s') (n : Nat)
    (trail : List Int) :
    loop image (n + 1) trail s = ⟨.faulted s.pc p f, s', s.pc :: trail⟩ :=
  Turn.loop_eq (.faulted hs hp hexec)

/-- A safe run is cut off, ends in a fault that is allowed, or halts as demanded. -/
theorem Safe.outcome {n : Nat} (h : Safe image d n s) (trail : List Int) :
    (loop image n trail s).outcome.IsCutOff ∨
      (∃ pc p f, (loop image n trail s).outcome = .faulted pc p f ∧ d.fault f) ∨
      ((loop image n trail s).outcome = .returned (loop image n trail s).state.registers.rax ∧
        d.halt (loop image n trail s).state) := by
  induction n generalizing s trail with
  | zero =>
    rcases h.inversion with ⟨hs, hhalt⟩ | ⟨hs, p, hp, -, -⟩
    · rw [loop_halted hs]
      exact .inr (.inr ⟨rfl, hhalt⟩)
    · rw [loop_zero hs hp]
      exact .inl ⟨_, _, rfl⟩
  | succ n ih =>
    rcases h.inversion with ⟨hs, hhalt⟩ | ⟨hs, p, hp, -, hnext⟩
    · rw [loop_halted hs]
      exact .inr (.inr ⟨rfl, hhalt⟩)
    · rcases hnext n rfl with ⟨s', hexec, -, hs'⟩ | ⟨f, s', hexec, hf⟩
      · rw [loop_step hs hp hexec]
        exact ih hs' _
      · rw [loop_fault hs hp hexec]
        exact .inr (.inl ⟨_, _, _, rfl, hf⟩)

/-! ## Endings -/

/-- The states of the runs of an entry, with any limit. -/
def Reaches (image : Image) (entry : Text) (machine s : State) : Prop :=
  ∃ pc called, image.index? entry = some pc ∧
    push State.haltAddress (machine.reset pc) = .ok () called ∧ Visits image called s

/-- A run executes the instructions of states that it reaches. -/
theorem visits_of_loop {image : Image} {start s : State} (hs : Visits image start s) (n : Nat)
    (trail : List Int) :
    ∀ pc ∈ (loop image n trail s).trail, pc ∈ trail ∨
      ∃ s' p, Visits image start s' ∧ s'.pc = pc ∧ image.fetch? pc = some p := by
  have hhere : ∀ {s : State} {p : Placed} {trail : List Int} {pc : Int}, Visits image start s →
      image.fetch? s.pc = some p → pc ∈ s.pc :: trail → pc ∈ trail ∨
        ∃ s' p, Visits image start s' ∧ s'.pc = pc ∧ image.fetch? pc = some p := by
    intro s p trail pc hs hp hmem
    rcases List.mem_cons.1 hmem with rfl | hmem
    · exact .inr ⟨s, p, hs, rfl, hp⟩
    · exact .inl hmem
  induction n generalizing s trail with
  | zero =>
    have hturn := loop_turn image 0 trail s
    generalize loop image 0 trail s = r at hturn ⊢
    cases hturn with
    | _ => exact fun pc hpc => .inl hpc
  | succ n ih =>
    have hturn := loop_turn image (n + 1) trail s
    generalize loop image (n + 1) trail s = r at hturn ⊢
    cases hturn with
    | returned _ => exact fun pc hpc => .inl hpc
    | ranOff _ _ => exact fun pc hpc => .inl hpc
    | faulted _ hp _ => exact fun pc hpc => hhere hs hp hpc
    | crashed _ hp _ => exact fun pc hpc => hhere hs hp hpc
    | move hhalted hp hexec =>
      intro pc hpc
      rcases ih (hs.move ⟨hhalted, _, hp, hexec⟩) _ pc hpc with hmem | hmem
      · exact hhere hs hp hmem
      · exact .inr hmem

theorem fetched_of_run (image : Image) (limit : Int) (entry : Text) (machine : State) :
    ∀ pc ∈ (run image limit entry machine).trail,
      ∃ s p, Reaches image entry machine s ∧ s.pc = pc ∧ image.fetch? pc = some p := by
  intro pc hpc
  rw [run] at hpc
  split at hpc
  · cases hpc
  · next start hindex =>
    split at hpc
    · cases hpc
    · cases hpc
    · next called hpush =>
      rcases visits_of_loop .start limit.toNat [] pc hpc with hmem | ⟨s, p, hvisits, hs, hp⟩
      · cases hmem
      · exact ⟨s, p, ⟨start, called, hindex, hpush, hvisits⟩, hs, hp⟩

theorem reaches_of_run (image : Image) (limit : Int) (entry : Text) (machine : State) :
    ∀ pc ∈ (run image limit entry machine).trail, ∃ s, Reaches image entry machine s ∧ s.pc = pc := by
  intro pc hpc
  obtain ⟨s, p, hs, hpc, -⟩ := fetched_of_run image limit entry machine pc hpc
  exact ⟨s, hs, hpc⟩

/-- How a run from a state can end, and in which state. -/
inductive Stops (image : Image) (start : State) : Outcome → State → Prop where
  | returned {s : State} : Visits image start s → s.Halted →
      Stops image start (.returned s.registers.rax) s
  | ranOff {s : State} : Visits image start s → ¬ s.Halted → image.fetch? s.pc = none →
      Stops image start (.ranOff s.pc) s
  | cutOff {s : State} {p : Placed} : Visits image start s → ¬ s.Halted →
      image.fetch? s.pc = some p → Stops image start (.faulted s.pc p .stepLimit) s
  | faulted {s s' : State} {p : Placed} {f : Fault} : Visits image start s → ¬ s.Halted →
      image.fetch? s.pc = some p → execute image p.instruction s.counted = .error (.fault f) s' →
      Stops image start (.faulted s.pc p f) s'
  | crashed {s s' : State} {p : Placed} {c : Crash} : Visits image start s → ¬ s.Halted →
      image.fetch? s.pc = some p → execute image p.instruction s.counted = .error (.crash c) s' →
      Stops image start (.crashed c) s'

theorem stops_of_loop (hs : Visits image start s) (n : Nat) (trail : List Int) :
    Stops image start (loop image n trail s).outcome (loop image n trail s).state := by
  induction n generalizing s trail with
  | zero =>
    have hturn := loop_turn image 0 trail s
    generalize loop image 0 trail s = r at hturn ⊢
    cases hturn with
    | returned hhalted => exact .returned hs hhalted
    | ranOff hhalted hp => exact .ranOff hs hhalted hp
    | cutOff hhalted hp => exact .cutOff hs hhalted hp
  | succ n ih =>
    have hturn := loop_turn image (n + 1) trail s
    generalize loop image (n + 1) trail s = r at hturn ⊢
    cases hturn with
    | returned hhalted => exact .returned hs hhalted
    | ranOff hhalted hp => exact .ranOff hs hhalted hp
    | faulted hhalted hp hexec => exact .faulted hs hhalted hp hexec
    | crashed hhalted hp hexec => exact .crashed hs hhalted hp hexec
    | move hhalted hp hexec => exact ih (hs.move ⟨hhalted, _, hp, hexec⟩) _

/-! ## Halting -/

/-- With a limit that is great enough the run ends by itself. -/
def Halts (image : Image) (s : State) : Prop :=
  ∃ n, ∀ m, n ≤ m → ∀ trail, ¬ (loop image m trail s).outcome.IsCutOff

theorem Halts.closed (hd : ¬ d.fault .stepLimit) : Closed image d (Halts image) where
  step hs hp _ hexec _ h := by
    obtain ⟨n, hn⟩ := h
    refine ⟨n + 1, fun m hm trail => ?_⟩
    obtain ⟨m, rfl⟩ : ∃ k, m = k + 1 := ⟨m - 1, by omega⟩
    rw [loop_step hs hp hexec]
    exact hn m (Nat.le_of_succ_le_succ hm) _
  fault hs hp _ hexec hf := by
    refine ⟨1, fun m hm trail hcut => ?_⟩
    obtain ⟨m, rfl⟩ : ∃ k, m = k + 1 := ⟨m - 1, by omega⟩
    rw [loop_fault hs hp hexec] at hcut
    obtain ⟨pc, p, heq⟩ := hcut
    cases heq
    exact hd hf
  halt hs _ := by
    refine ⟨0, fun m _ trail hcut => ?_⟩
    rw [loop_halted hs] at hcut
    obtain ⟨pc, p, heq⟩ := hcut
    cases heq

end Machine
end WordC
