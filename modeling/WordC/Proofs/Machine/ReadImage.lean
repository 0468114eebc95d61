import WordC.Proofs.Machine.Effects
/-!
Runs of images that were read.

What an instruction keeps, every run keeps, and a run is stopped by a trap of one of its
instructions.  So no run meets the gaps that the reader closes, no run leaves a trace in
the next one, and there is a single address at which the machine breaks down.
-/

namespace WordC
namespace Machine

open Asm

/-! ## What a run keeps -/

theorem State.keeps_reset (s : State) (pc : Int) : s.Keeps (s.reset pc) :=
  ⟨Stack.size_zeros _, rfl⟩

/-- All that a reset takes over is kept. -/
theorem State.reset_eq_of_keeps {s s' : State} (h : s.Keeps s') (pc : Int) :
    s'.reset pc = s.reset pc := by
  rw [reset, reset, Stack.top, Stack.top, h.size, h.others]

section Keeps

variable {image : Image} {s s' start : State} (himage : image.Admitted)

include himage

theorem formed_of_fetch? {pc : Int} {p : Placed} (hp : image.fetch? pc = some p) :
    p.instruction.Formed :=
  himage.formed p (Image.mem_of_fetch? hp)

theorem keeps_of_moves (h : Moves image s s') : s.Keeps s' := by
  obtain ⟨-, p, hp, hexec⟩ := h
  have hkeeps := (execute_ends s.counted image (formed_of_fetch? himage hp)).succeeded hexec
  exact ⟨hkeeps.size, hkeeps.others⟩

theorem keeps_of_visits (h : Visits image start s) : start.Keeps s := by
  induction h with
  | start => exact .refl start
  | move _ hmoves ih => exact ih.trans (keeps_of_moves himage hmoves)

theorem keeps_of_reaches {entry : Text} {machine : State} (h : Reaches image entry machine s) :
    machine.Keeps s := by
  obtain ⟨pc, called, -, hpush, hvisits⟩ := h
  have hcalled := (push_ends (machine.reset pc) State.haltAddress).succeeded hpush
  exact ((machine.keeps_reset pc).trans hcalled).trans (keeps_of_visits himage hvisits)

/-- An instruction that fails keeps as much as one that does not. -/
theorem failing_of_error {p : Placed} {t : Trap} (hp : image.fetch? s.pc = some p)
    (hexec : execute image p.instruction s.counted = .error t s') :
    Failing p.instruction s t s' := by
  have hformed := formed_of_fetch? himage hp
  obtain ⟨hkeeps, hfails⟩ := (execute_ends s.counted image hformed).failed hexec
  exact ⟨⟨hkeeps.size, hkeeps.others⟩, hfails⟩

theorem keeps_of_stops {o : Outcome} (h : Stops image start o s) : start.Keeps s := by
  cases h with
  | returned hvisits _ => exact keeps_of_visits himage hvisits
  | ranOff hvisits _ _ => exact keeps_of_visits himage hvisits
  | cutOff hvisits _ _ => exact keeps_of_visits himage hvisits
  | faulted hvisits _ hp hexec =>
    exact (keeps_of_visits himage hvisits).trans (failing_of_error himage hp hexec).1
  | crashed hvisits _ hp hexec =>
    exact (keeps_of_visits himage hvisits).trans (failing_of_error himage hp hexec).1

end Keeps

/-! ## What stops a run -/

/-- The trap that an outcome reports. -/
def Outcome.trap? : Outcome → Option Trap
  | .noRoom f => some (.fault f)
  | .faulted _ _ f => some (.fault f)
  | .crashed c => some (.crash c)
  | _ => none

/-- Why a run is stopped: by its limit, for want of room for the return address, or at an
instruction. -/
inductive Stopped (image : Image) (entry : Text) (machine : State) : Trap → Prop where
  | limit : Stopped image entry machine (.fault .stepLimit)
  | noRoom {t : Trap} :
      (Stack.zeros machine.stack.size).locate (machine.stack.top - 8) = .error t →
      Stopped image entry machine t
  | fails {s : State} {p : Placed} {t : Trap} : Reaches image entry machine s →
      image.fetch? s.pc = some p → Fails p.instruction s.registers s.stack t →
      Stopped image entry machine t

section Run

variable {image : Image} (limit : Int) (entry : Text) (machine : State)

/-- A run of an entry that is defined. -/
theorem run_defined {pc : Int} (h : image.index? entry = some pc) :
    (∃ t, (Stack.zeros machine.stack.size).locate (machine.stack.top - 8) = .error t ∧
      (run image limit entry machine).outcome.trap? = some t ∧
      (run image limit entry machine).state = machine.reset pc) ∨
    ∃ called, push State.haltAddress (machine.reset pc) = .ok () called ∧
      machine.Keeps called ∧
      Stops image called (run image limit entry machine).outcome
        (run image limit entry machine).state := by
  have hends := push_ends (machine.reset pc) State.haltAddress
  rw [run, h]
  dsimp only
  cases hpush : push State.haltAddress (machine.reset pc) with
  | ok _ called =>
    exact .inr ⟨called, rfl, (machine.keeps_reset pc).trans (hends.succeeded hpush),
      stops_of_loop .start _ _⟩
  | error t s =>
    obtain ⟨rfl, hlocate⟩ := hends.failed hpush
    refine .inl ⟨t, hlocate, ?_⟩
    cases t with
    | fault f => exact ⟨rfl, rfl⟩
    | crash c => exact ⟨rfl, rfl⟩

theorem run_undefined (h : image.index? entry = none) :
    run image limit entry machine = ⟨.undefinedEntry entry, machine, []⟩ := by
  rw [run, h]

variable (himage : image.Admitted)

include himage

theorem run_keeps : machine.Keeps (run image limit entry machine).state := by
  cases hindex : image.index? entry with
  | none =>
    rw [run_undefined limit entry machine hindex]
    exact .refl machine
  | some pc =>
    rcases run_defined limit entry machine hindex with
      ⟨t, -, -, hstate⟩ | ⟨called, -, hkeeps, hstops⟩
    · rw [hstate]
      exact machine.keeps_reset pc
    · exact hkeeps.trans (keeps_of_stops himage hstops)

theorem stopped_of_trap {t : Trap} (h : (run image limit entry machine).outcome.trap? = some t) :
    Stopped image entry machine t := by
  cases hindex : image.index? entry with
  | none =>
    rw [run_undefined limit entry machine hindex] at h
    cases h
  | some pc =>
    rcases run_defined limit entry machine hindex with
      ⟨t', hlocate, htrap, -⟩ | ⟨called, hpush, -, hstops⟩
    · cases h.symm.trans htrap
      exact .noRoom hlocate
    · generalize (run image limit entry machine).outcome = o at h hstops
      cases hstops with
      | returned _ _ => cases h
      | ranOff _ _ _ => cases h
      | cutOff _ _ _ =>
        cases h
        exact .limit
      | faulted hvisits _ hp hexec =>
        cases h
        exact .fails ⟨pc, called, hindex, hpush, hvisits⟩ hp (failing_of_error himage hp hexec).2
      | crashed hvisits _ hp hexec =>
        cases h
        exact .fails ⟨pc, called, hindex, hpush, hvisits⟩ hp (failing_of_error himage hp hexec).2

end Run

/-! ## Gaps that are closed -/

/-- A run in which every instruction has its operands, every jump a place to go to, and
every operand a value. -/
structure Report.Orderly (image : Image) (machine : State) (r : Report) : Prop where
  executed : ∀ pc ∈ r.trail, ∃ p, image.fetch? pc = some p ∧ p.instruction.Formed ∧
    (p.instruction.op.isJump = true →
      ∀ o ∈ p.instruction.operands, ∃ target, image.index? o.label = some target)
  operands : ∀ index count, r.outcome.trap? ≠ some (.crash (.missingOperand index count))
  supported : ∀ op, r.outcome.trap? ≠ some (.fault (.unsupported op))
  readable : ∀ operand, r.outcome.trap? ≠ some (.fault (.unreadable operand))
  registers : r.state.registers.others = machine.registers.others

/-- The traps of a run that the reader rules out. -/
def Trap.RuledOut : Trap → Prop
  | .crash (.missingOperand _ _) => True
  | .fault (.unsupported _) => True
  | .fault (.unreadable _) => True
  | _ => False

theorem not_ruledOut_of_locate {stack : Stack} {address : Word} {t : Trap}
    (h : stack.locate address = .error t) : ¬ t.RuledOut := by
  rcases Stack.locate_error_cases h with rfl | rfl | rfl
  · exact id
  · exact id
  · exact id

theorem Stopped.not_ruledOut {image : Image} {entry : Text} {machine : State} {t : Trap}
    (h : Stopped image entry machine t) : ¬ t.RuledOut := by
  cases h with
  | limit => exact id
  | noRoom hlocate => exact not_ruledOut_of_locate hlocate
  | fails _ _ hfails =>
    cases hfails with
    | access _ hlocate => exact not_ruledOut_of_locate hlocate
    | _ => exact id

theorem run_orderly {image : Image} (himage : image.Admitted) (limit : Int) (entry : Text)
    (machine : State) : (run image limit entry machine).Orderly image machine := by
  have hruled : ∀ t, t.RuledOut → (run image limit entry machine).outcome.trap? ≠ some t :=
    fun t ht h => (stopped_of_trap limit entry machine himage h).not_ruledOut ht
  refine ⟨fun pc hpc => ?_, fun _ _ => hruled _ trivial, fun _ => hruled _ trivial,
    fun _ => hruled _ trivial, (run_keeps limit entry machine himage).others⟩
  obtain ⟨s, p, -, -, hp⟩ := fetched_of_run image limit entry machine pc hpc
  exact ⟨p, hp, formed_of_fetch? himage hp, himage.targets p (Image.mem_of_fetch? hp)⟩

/-- The reader gives an image or names what is wrong, and it never misses a part that it
takes for granted.  What it gives, every run can rely on. -/
theorem read_image_orderly (text : Text) :
    (∀ line : Text, line.head? = some Byte.dot → Text.words line ≠ []) ∧
      (∀ field : Text, field.head? = some Byte.leftBracket →
        field.getLast? = some Byte.rightBracket → 2 ≤ field.length) ∧
      (∀ image, Reader.readLines 1 (text.splitOn Byte.newline) .empty = .ok image →
        ∀ p ∈ image.instructions.toList, p.instruction.op.isJump = true →
          p.instruction.operands ≠ []) ∧
      match Image.parse text with
      | .ok image =>
        image.Admitted ∧
          ∀ limit entry machine, (run image limit entry machine).Orderly image machine
      | .error .lineTooLong => ∃ line ∈ text.splitOn Byte.newline, Reader.lineLimit ≤ line.length
      | .error (.malformed n _) => 1 ≤ n ∧ n ≤ (text.splitOn Byte.newline).length := by
  refine ⟨fun _ => Reader.words_ne_nil, fun _ => Reader.two_le_length, ?_, ?_⟩
  · intro image hread p hp hjump
    have hlines := Reader.readLines_cases (text.splitOn Byte.newline) Reader.readBefore_empty
      (Nat.le_refl 1)
    rw [hread] at hlines
    obtain ⟨o, ho⟩ := Reader.operand_of_jump (hlines.formed p hp) hjump
    rw [ho]
    exact List.cons_ne_nil o []
  · have hcases := Image.parse_cases text
    cases hparse : Image.parse text with
    | ok image =>
      rw [hparse] at hcases
      exact ⟨hcases, run_orderly hcases⟩
    | error e =>
      rw [hparse] at hcases
      cases e with
      | lineTooLong => exact hcases
      | malformed n spot => exact hcases

/-- Odd lines: a label with a space in it and one without a name, a directive that means
nothing, a displacement to base sixteen. -/
def oddText : Text := utf8 "a b:\n:\n.word 1, 2 # data\n mov [ rsp - 0x8 ],rax\njmp a b\n"

def oddImage : Image where
  instructions :=
    #[⟨4, .mov, [.memory .rsp (-8), .register .rax]⟩, ⟨5, .jmp, [.target (utf8 "a b")]⟩]
  labels := [(utf8 "a b", 0), ([], 0)]
  globals := []

theorem parse_oddText : Image.parse oddText = .ok oddImage := by
  decide +kernel

theorem oddText_orderly :
    Image.parse oddText = .ok oddImage ∧ oddImage.Admitted ∧
      (run oddImage 5 [] (.fresh (.zeros 16))).trail = [0, 1, 0, 1, 0] ∧
      (run oddImage 5 [] (.fresh (.zeros 16))).Orderly oddImage (.fresh (.zeros 16)) := by
  obtain ⟨-, -, -, hread⟩ := read_image_orderly oddText
  rw [parse_oddText] at hread
  exact ⟨parse_oddText, hread.1, by decide +kernel, hread.2 5 [] (.fresh (.zeros 16))⟩

/-! ## One run after another -/

/-- The machine after the runs of some entries. -/
def after (image : Image) (limit : Int) (machine : State) (entries : List Text) : State :=
  entries.foldl (fun s entry => (run image limit entry s).state) machine

theorem keeps_after {image : Image} (himage : image.Admitted) (limit : Int) (machine : State)
    (entries : List Text) : machine.Keeps (after image limit machine entries) := by
  induction entries generalizing machine with
  | nil => exact .refl machine
  | cons entry entries ih => exact (run_keeps limit entry machine himage).trans (ih _)

/-- A run depends on the machine through its reset alone. -/
theorem run_eq_of_keeps {image : Image} {entry : Text} {pc : Int}
    (hindex : image.index? entry = some pc) {s s' : State} (h : s.Keeps s') (limit : Int) :
    run image limit entry s' = run image limit entry s := by
  rw [run, run, hindex]
  dsimp only
  rw [State.reset_eq_of_keeps h]

/-- A run sees nothing of the runs before it, and one of an entry that is not defined
changes nothing. -/
theorem run_isolated {text : Text} {image : Image} (h : Image.parse text = .ok image)
    (stack : Stack) (limit : Int) (earlier : List Text) (entry : Text) :
    (∀ pc, image.index? entry = some pc →
      run image limit entry (after image limit (.fresh stack) earlier) =
        run image limit entry (.fresh stack)) ∧
    (image.index? entry = none →
      run image limit entry (after image limit (.fresh stack) earlier) =
        ⟨.undefinedEntry entry, after image limit (.fresh stack) earlier, []⟩) := by
  have hkeeps := keeps_after (Image.admitted_of_parse h) limit (.fresh stack) earlier
  exact ⟨fun pc hindex => run_eq_of_keeps hindex hkeeps limit, run_undefined limit entry _⟩

/-- One entry leaves a register and the stack changed and then fails, the other shows what
it finds in the register. -/
def leakText : Text := utf8 "f:\npush 7\npop rbx\nidiv rax\ng:\nmov rax, rbx\nret"

def leakImage : Image where
  instructions := #[⟨2, .push, [.immediate 7]⟩, ⟨3, .pop, [.register .rbx]⟩,
    ⟨4, .idiv, [.register .rax]⟩, ⟨6, .mov, [.register .rax, .register .rbx]⟩, ⟨7, .ret, []⟩]
  labels := [(utf8 "f", 0), (utf8 "g", 3)]
  globals := []

theorem parse_leakText : Image.parse leakText = .ok leakImage := by
  decide +kernel

theorem leakText_isolated :
    (after leakImage 9 (.fresh (.zeros 32)) [utf8 "f", utf8 "h"]).registers.rbx = 7 ∧
      (run leakImage 9 (utf8 "g")
        (after leakImage 9 (.fresh (.zeros 32)) [utf8 "f", utf8 "h"])).outcome = .returned 0 := by
  have hisolated := run_isolated parse_leakText (.zeros 32) 9 [utf8 "f", utf8 "h"] (utf8 "g")
  refine ⟨by decide +kernel, ?_⟩
  rw [hisolated.1 3 (by decide +kernel)]
  decide +kernel

/-! ## The one bad address -/

section Crash

variable {machine : State} (hsize : (machine.stack.size : Int) ≤ Stack.sizeLimit)

include hsize

/-- The return address is stored just below the top of the stack, far from the blind spot. -/
theorem top_ne_blindSpot : machine.stack.top - 8 ≠ Stack.blindSpot := by
  intro heq
  have hlimit : Stack.sizeLimit = 281474976710656 := rfl
  have hstack : (Int64.ofNat machine.stack.size).toInt = machine.stack.size :=
    Int64.toInt_ofNat_of_lt (by omega)
  have htop : machine.stack.top = Stack.blindSpot + 8 := by rw [← heq, Int64.sub_add_cancel]
  have hoffset : Int64.ofNat machine.stack.size = Stack.blindSpot + 8 - Stack.base := by
    rw [← htop, Stack.top, Int64.add_comm, Int64.add_sub_cancel]
  have hblind : (Stack.blindSpot + 8 - Stack.base).toInt = -9223372036854775808 := rfl
  rw [hoffset, hblind] at hstack
  omega

/-- What crashes a run is an access to the blind spot. -/
theorem crash_of_stopped {image : Image} (himage : image.Admitted) {entry : Text} {c : Crash}
    (h : Stopped image entry machine (.crash c)) :
    c = .pastEnd Stack.lastOffset machine.stack.size ∧
      ∃ s p, Reaches image entry machine s ∧ image.fetch? s.pc = some p ∧
        Stack.blindSpot ∈ s.registers.addresses p.instruction := by
  have hbound := Stack.size_lt_of_le hsize
  cases h with
  | noRoom hlocate =>
    have hlocates := Stack.locates (s := .zeros machine.stack.size) (by rwa [Stack.size_zeros])
      (machine.stack.top - 8)
    rw [hlocate] at hlocates
    cases hlocates with
    | blind heq => exact absurd heq (top_ne_blindSpot hsize)
  | @fails s p _ hreaches hp hfails =>
    have hsame := (keeps_of_reaches himage hreaches).size
    cases hfails with
    | @access address _ haddress hlocate =>
      have hlocates := Stack.locates (by rwa [hsame]) address
      rw [hlocate] at hlocates
      cases hlocates with
      | blind heq =>
        subst heq
        exact ⟨by rw [hsame], s, p, hreaches, hp, haddress⟩

end Crash

/-- Every address but the blind spot is checked, and a run that breaks down has come to an
instruction that accesses it. -/
theorem crash_only_at_blindSpot {text : Text} {image : Image} (h : Image.parse text = .ok image)
    {machine : State} (hsize : (machine.stack.size : Int) ≤ Stack.sizeLimit) :
    (∀ stack : Stack, stack.size = machine.stack.size → ∀ address value,
      (stack.Checked address value ↔ address ≠ Stack.blindSpot) ∧
        stack.load Stack.blindSpot = .error (.crash (.pastEnd Stack.lastOffset stack.size)) ∧
        stack.store Stack.blindSpot value =
          .error (.crash (.pastEnd Stack.lastOffset stack.size))) ∧
    ∀ limit entry, (∀ s, Reaches image entry machine s → s.stack.size = machine.stack.size) ∧
      ∀ c, (run image limit entry machine).outcome = .crashed c →
        c = .pastEnd Stack.lastOffset machine.stack.size ∧
          ∃ s p, Reaches image entry machine s ∧ image.fetch? s.pc = some p ∧
            Stack.blindSpot ∈ s.registers.addresses p.instruction := by
  have himage := Image.admitted_of_parse h
  refine ⟨fun stack hstack address value => ?_, fun limit entry =>
    ⟨fun s hs => (keeps_of_reaches himage hs).size, fun c hc => ?_⟩⟩
  · have hbound := Stack.size_lt_of_le (hstack ▸ hsize)
    exact ⟨Stack.checked_iff hbound address value, Stack.load_blindSpot hbound,
      Stack.store_blindSpot hbound value⟩
  · have htrap : (run image limit entry machine).outcome.trap? = some (.crash c) := by
      rw [hc]
      rfl
    exact crash_of_stopped hsize himage (stopped_of_trap limit entry machine himage htrap)

/-- A load at the blind spot. -/
def blindText : Text := utf8 "main:\n  mov rax, [rbx-9223372034707357704]\n  ret\n"

def blindImage : Image where
  instructions := #[⟨2, .mov, [.register .rax, .memory .rbx (-9223372034707357704)]⟩, ⟨3, .ret, []⟩]
  labels := [(utf8 "main", 0)]
  globals := []

theorem parse_blindText : Image.parse blindText = .ok blindImage := by
  decide +kernel

theorem blindText_crashes :
    ∃ image, Image.parse blindText = .ok image ∧
      (run image standardLimit (utf8 "main") (.fresh (.zeros 16))).outcome =
        .crashed (.pastEnd 9223372036854775800 16) :=
  ⟨blindImage, parse_blindText, by decide +kernel⟩

theorem blindText_crash_located :
    Image.parse blindText = .ok blindImage ∧
      ∃ s p, Reaches blindImage (utf8 "main") (.fresh (.zeros 16)) s ∧
        blindImage.fetch? s.pc = some p ∧
        Stack.blindSpot ∈ s.registers.addresses p.instruction := by
  have hsize : ((State.fresh (.zeros 16)).stack.size : Int) ≤ Stack.sizeLimit := by decide
  have hruns := (crash_only_at_blindSpot parse_blindText hsize).2 standardLimit (utf8 "main")
  exact ⟨parse_blindText, (hruns.2 (.pastEnd 9223372036854775800 16) (by decide +kernel)).2⟩

end Machine
end WordC
