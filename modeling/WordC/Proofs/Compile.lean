import WordC.Proofs.Printing
import WordC.Proofs.Simulation.Function
/-!
Compiled programs do what they mean.

The assembly text of a program is read back and run on a machine.  The run may be cut
off by its limit, and the stack may be too small for it.  Otherwise it ends with the
result of the program, and a program that has a result is cut off by small limits only.
-/

namespace WordC

open Asm Evaluation Machine Simulation
open Codegen hiding State push pop run

namespace Machine
namespace Outcome

/-- The run reached for an address outside the stack. -/
def IsSegmentation (o : Outcome) : Prop :=
  (∃ address, o = .noRoom (.outsideStack address)) ∨
    ∃ pc p address, o = .faulted pc p (.outsideStack address)

/-- The run ended with the result. -/
def Gives (o : Outcome) : Except Stop Word → Prop
  | .ok v => o = .returned v
  | .error .divisionByZero => ∃ pc p, o = .faulted pc p .divisionByZero
  | .error .divisionOverflow => ∃ pc p, o = .faulted pc p .divisionOverflow
  | .error .meaningless => False

variable {o : Outcome} {pc : Int} {p : Placed} {f : Fault}

theorem not_isSegmentation_faulted (hf : ∀ address, f ≠ .outsideStack address) :
    ¬ (faulted pc p f).IsSegmentation := by
  intro h
  rcases h with ⟨_, heq⟩ | ⟨_, _, address, heq⟩
  · cases heq
  · injection heq with _ _ heq
    exact hf address heq

theorem not_isSegmentation_of_isCutOff (h : o.IsCutOff) : ¬ o.IsSegmentation := by
  obtain ⟨pc, p, rfl⟩ := h
  exact not_isSegmentation_faulted nofun

theorem not_isSegmentation_of_gives {result : Except Stop Word} (h : o.Gives result) :
    ¬ o.IsSegmentation := by
  match result, h with
  | .ok v, heq =>
    rw [heq]
    intro h
    rcases h with ⟨_, h⟩ | ⟨_, _, _, h⟩
    · cases h
    · cases h
  | .error .divisionByZero, ⟨pc, p, heq⟩ =>
    rw [heq]
    exact not_isSegmentation_faulted nofun
  | .error .divisionOverflow, ⟨pc, p, heq⟩ =>
    rw [heq]
    exact not_isSegmentation_faulted nofun

end Outcome
end Machine

/-! ## Texts that are read back -/

/-- A compiled text whose entry can be told from its branch labels, and whose lines fit
the reader. -/
structure Admissible (source : Text) (settings : Settings) (code : Text) : Prop where
  compiled : compile source settings = .ok code
  source_lt : source.length < 2 ^ 40
  slots_lt : settings.frameSlots.toInt < 2 ^ 40
  entry : settings.withDefaults.entrySymbol ∉ branchLabels code
  lines : ∀ line ∈ Text.splitOn Byte.newline code, line.length ≤ 65535

/-- Whether a source is compiled to an admissible text. -/
def isAdmissible (source : Text) (settings : Settings) : Bool :=
  match compile source settings with
  | .error _ => false
  | .ok code =>
    source.length < 2 ^ 40 && settings.frameSlots.toInt < 2 ^ 40 &&
      settings.withDefaults.entrySymbol ∉ branchLabels code &&
      (Text.splitOn Byte.newline code).all (·.length ≤ 65535)

theorem exists_admissible {source : Text} {settings : Settings}
    (h : isAdmissible source settings = true) : ∃ code, Admissible source settings code := by
  unfold isAdmissible at h
  split at h
  · cases h
  · next code hcompile =>
    simp only [Bool.and_eq_true, decide_eq_true_eq, List.all_eq_true] at h
    obtain ⟨⟨⟨hsource, hslots⟩, hentry⟩, hlines⟩ := h
    exact ⟨code, hcompile, hsource, hslots, hentry, hlines⟩

theorem Admissible.exists_compiled {source code : Text} {settings : Settings}
    (h : Admissible source settings code) :
    ∃ p lines s image, Program.parse source = .ok p ∧
      Codegen.run settings.withDefaults p = .ok lines s ∧
      lines = functionLines settings.withDefaults.entrySymbol s.frame
        (bodySites settings.withDefaults s.frame.names.idxOf p) ∧
      code = render lines ∧ Image.parse code = .ok image ∧
      Compiled settings.withDefaults p s.frame image := by
  obtain ⟨p, lines, s, hparse, hsane, hrun, rfl⟩ := compile_ok h.compiled
  have hwell : Node.areWellFormed p = true := wellFormed_of_parse hparse
  obtain ⟨rfl, hgrows⟩ := run_ok hrun
  have hlabelled := labelled_body hsane.stem s.frame.names.idxOf p
  have himage := parse_function hsane.entry hlabelled h.entry fun line hline =>
    Nat.lt_succ_of_le (h.lines line hline)
  have hholds := holds_function hsane.entry hlabelled h.entry
  have hidents : (Node.identsAll p).length < 2 ^ 40 :=
    Nat.lt_of_le_of_lt (idents_le_of_parse hparse) h.source_lt
  have hslots : s.frame.slots < 2 ^ 40 := Frame.slots_lt hgrows h.slots_lt hidents
  refine ⟨p, _, s, _, hparse, hrun, rfl, rfl, himage, hwell, hgrows.holds, ?_, ?_, hholds⟩
  · exact hgrows.sound (Frame.sound_empty _)
  · exact Nat.lt_trans hslots (by decide)

/-! ## Runs -/

namespace Simulation
namespace Compiled

variable {settings : Settings} {p : Program} {frame : Frame} {image : Image} {machine : State}
  (h : Compiled settings p frame image)

include h

theorem size_toInt : frame.size.toInt = 8 * frame.words := by
  have hlt := h.words_lt
  rw [h.size_eq, Int64.toInt_ofNat_of_lt (by omega)]
  omega

/-- A run with room for the call starts in the prologue. -/
theorem run_eq (room : Room machine.stack.size) :
    ∃ s, Machine.push State.haltAddress (machine.reset 0) = .ok () s ∧ s.pc = 0 ∧
      Entered (h.routine room) 0 1 s ∧
      ∀ limit, run image limit settings.entrySymbol machine = loop image limit.toNat [] s := by
  obtain ⟨s, hpush, hpc, hs⟩ : ∃ s, Machine.push State.haltAddress (machine.reset 0) = .ok () s ∧
      s.pc = 0 ∧ Entered (h.routine room) 0 1 s := entered_call rfl
  refine ⟨s, hpush, hpc, hs, fun limit => ?_⟩
  rw [run, h.index?_entry]
  simp only [hpush]

theorem run_empty (hsize : machine.stack.size = 0) (limit : Int) :
    (run image limit settings.entrySymbol machine).outcome =
      .noRoom (.outsideStack (Stack.below 0 1)) := by
  rw [run, h.index?_entry]
  simp only [push_empty hsize]

variable (room : Room machine.stack.size) (limit : Int)

include room

/-- A run is cut off, does not fit the stack, or has the result of the program. -/
theorem outcome_cases :
    (run image limit settings.entrySymbol machine).outcome.IsCutOff ∨
      ((run image limit settings.entrySymbol machine).outcome.IsSegmentation ∧
        (h.routine room).Cramped) ∨
      ∃ result, Evaluates p result ∧
        (run image limit settings.entrySymbol machine).outcome.Gives result := by
  obtain ⟨s, -, hpc, hs, hrun⟩ := h.run_eq room
  rw [hrun]
  rcases (h.safe room hs hpc limit.toNat).outcome [] with
    hcut | ⟨pc, placed, f, houtcome, hf⟩ | ⟨houtcome, hhalt⟩
  · exact .inl hcut
  · refine .inr ?_
    cases f with
    | outsideStack address => exact .inl ⟨.inr ⟨pc, placed, address, houtcome⟩, hf⟩
    | divisionByZero => exact .inr ⟨.error .divisionByZero, hf, pc, placed, houtcome⟩
    | divisionOverflow => exact .inr ⟨.error .divisionOverflow, hf, pc, placed, houtcome⟩
    | _ => exact hf.elim
  · exact .inr (.inr ⟨.ok _, hhalt.1, houtcome⟩)

/-- What a run that returns leaves in the registers. -/
theorem registers_of_returned {v : Word}
    (hreturned : (run image limit settings.entrySymbol machine).outcome = .returned v) :
    let registers := (run image limit settings.entrySymbol machine).state.registers
    registers.rsp = machine.stack.top ∧ registers.rbp = 0 ∧ registers.rbx = 0 ∧
      registers.rcx = 0 ∧ registers.rsi = 0 := by
  obtain ⟨s, -, hpc, hs, hrun⟩ := h.run_eq room
  rw [hrun] at hreturned ⊢
  rcases (h.safe room hs hpc limit.toNat).outcome [] with
    ⟨pc, placed, hcut⟩ | ⟨pc, placed, f, hfault, -⟩ | ⟨-, -, hrsp, hrest⟩
  · cases hreturned.symm.trans hcut
  · cases hreturned.symm.trans hfault
  · exact ⟨hrsp.trans (Stack.below_zero machine.stack), hrest⟩

/-- A program with a result is cut off by small limits only. -/
theorem exists_limit {result : Except Stop Word} (heval : Evaluates p result) :
    ∃ enough : Nat, ∀ limit : Int, enough ≤ limit →
      ¬ (run image limit settings.entrySymbol machine).outcome.IsCutOff := by
  obtain ⟨s, -, hpc, hs, hrun⟩ := h.run_eq room
  obtain ⟨n, hn⟩ := h.halts room heval hs hpc
  refine ⟨n, fun limit hlimit => ?_⟩
  rw [hrun]
  exact hn limit.toNat (by omega) []

/-- Every great enough limit leads to the result, if the stack has room. -/
theorem exists_limit_gives {result : Except Stop Word} (heval : Evaluates p result) :
    ∃ enough : Nat, ∀ limit : Int, enough ≤ limit →
      (run image limit settings.entrySymbol machine).outcome.IsSegmentation ∨
        (run image limit settings.entrySymbol machine).outcome.Gives result := by
  obtain ⟨enough, henough⟩ := h.exists_limit room heval
  refine ⟨enough, fun limit hlimit => ?_⟩
  rcases h.outcome_cases room limit with hcut | ⟨hsegmentation, -⟩ | ⟨result', heval', hgives⟩
  · exact absurd hcut (henough limit hlimit)
  · exact .inl hsegmentation
  · rw [heval.unique heval']
    exact .inr hgives

/-- Room for the locals and the greatest count is room for every run. -/
theorem not_isSegmentation
    (hneeds : 16 + frame.size.toInt + 8 * deepest (bodySites settings frame.names.idxOf p) ≤
      machine.stack.size) :
    ¬ (run image limit settings.entrySymbol machine).outcome.IsSegmentation := by
  rcases h.outcome_cases room limit with hcut | ⟨-, hcramped⟩ | ⟨result, -, hgives⟩
  · exact Outcome.not_isSegmentation_of_isCutOff hcut
  · rw [h.size_toInt] at hneeds
    change machine.stack.size < 16 + 8 * (frame.words +
      deepest (bodySites settings frame.names.idxOf p)) at hcramped
    omega
  · exact Outcome.not_isSegmentation_of_gives hgives

end Compiled

/-- A stack of so many bytes, rounded down to a multiple of sixteen, is empty or has room
for a call. -/
theorem room_or_empty {bytes size : Nat} (hbytes : bytes < 2 ^ 62) (hsize : size = bytes / 16 * 16) :
    Room size ∨ size = 0 := by
  by_cases hempty : size = 0
  · exact .inr hempty
  · exact .inl ⟨by omega, by omega, by omega⟩

end Simulation

/-! ## A sample -/

/-- Two rounds of a loop that sums quotients. -/
def quotients : Program :=
  [.loop (.binary .less (.ident (utf8 "i")) (.num 2)) (.block [
      .binary .assign (.ident (utf8 "i")) (.binary .add (.ident (utf8 "i")) (.num 1)),
      .binary .assign (.ident (utf8 "s")) (.binary .add (.ident (utf8 "s"))
        (.binary .div (.num 7) (.ident (utf8 "i"))))]),
    .ret (.ident (utf8 "s"))]

def quotientsText : Text := utf8 "while(i<2)\x7bi=i+1;s=s+7/i;\x7dreturn s;"

theorem parse_quotientsText : Program.parse quotientsText = .ok quotients := by
  cbv

theorem admissible_quotientsText : ∃ code, Admissible quotientsText .empty code := by
  refine exists_admissible ?_
  set_option maxRecDepth 4000 in
  cbv

theorem evaluates_quotients : Evaluates quotients (.ok 10) :=
  ⟨.returned 10,
    .cons (.loop
      (.again rfl (.block (.cons (.expression rfl) (.cons (.expression rfl) .nil))) .none
        (.again rfl (.block (.cons (.expression rfl) (.cons (.expression rfl) .nil))) .none
          (.done rfl))))
      (.leaves .ret trivial), rfl⟩

/-- Two locals, and four words at the most in the middle of a statement. -/
theorem needs_quotients {lines : List Line} {s : Codegen.State}
    (h : Codegen.run Settings.empty.withDefaults quotients = .ok lines s) :
    16 + s.frame.size.toInt + 8 * deepest
      (bodySites Settings.empty.withDefaults s.frame.names.idxOf quotients) = 64 := by
  have hframe : (match Codegen.run Settings.empty.withDefaults quotients with
      | .error _ _ => false
      | .ok _ s => s.frame = ⟨0, [utf8 "i", utf8 "s"]⟩) = true := by
    cbv
  simp only [h, decide_eq_true_eq] at hframe
  rw [hframe]
  cbv

theorem room_fresh : Room (State.fresh (.zeros 64)).stack.size := by
  rw [show (State.fresh (.zeros 64)).stack.size = 64 from Stack.size_zeros 64]
  exact ⟨rfl, by decide, by decide⟩

theorem compiled_quotients {code : Text} {image : Image}
    (hcode : Admissible quotientsText .empty code) (himage : Image.parse code = .ok image) :
    ∃ frame, Compiled Settings.empty.withDefaults quotients frame image ∧
      16 + frame.size.toInt + 8 * deepest
        (bodySites Settings.empty.withDefaults frame.names.idxOf quotients) = 64 := by
  obtain ⟨p, lines, s, image', hparse, hrun, -, -, himage', hcompiled⟩ := hcode.exists_compiled
  cases parse_quotientsText.symm.trans hparse
  cases himage.symm.trans himage'
  exact ⟨s.frame, hcompiled, needs_quotients hrun⟩

/-- A compiled text is read, and every run of its entry is cut off by the limit, does not
fit the stack, or ends with the result of the program.  If the program has a result,
every great enough limit leads to it. -/
theorem compiled_run_evaluates {source code : Text} {settings : Settings}
    (h : Admissible source settings code) :
    ∃ p image, Program.parse source = .ok p ∧ Image.parse code = .ok image ∧
      ∀ (bytes : Nat) (machine : State), bytes < 2 ^ 62 → machine.stack.size = bytes / 16 * 16 →
        let outcome := fun limit =>
          (run image limit settings.withDefaults.entrySymbol machine).outcome
        (∀ limit, (outcome limit).IsCutOff ∨ (outcome limit).IsSegmentation ∨
          ∃ result, Evaluates p result ∧ (outcome limit).Gives result) ∧
        ∀ result, Evaluates p result → ∃ enough : Nat, ∀ limit : Int, enough ≤ limit →
          (outcome limit).IsSegmentation ∨ (outcome limit).Gives result := by
  obtain ⟨p, -, s, image, hparse, -, -, -, himage, hcompiled⟩ := h.exists_compiled
  refine ⟨p, image, hparse, himage, fun bytes machine hbytes hsize => ?_⟩
  rcases room_or_empty hbytes hsize with room | hempty
  · refine ⟨fun limit => ?_, fun result heval => ?_⟩
    · rcases hcompiled.outcome_cases room limit with hcut | ⟨hsegmentation, -⟩ | hresult
      · exact .inl hcut
      · exact .inr (.inl hsegmentation)
      · exact .inr (.inr hresult)
    · exact hcompiled.exists_limit_gives room heval
  · have hsegmentation : ∀ limit,
        (run image limit settings.withDefaults.entrySymbol machine).outcome.IsSegmentation :=
      fun limit => .inl ⟨_, hcompiled.run_empty hempty limit⟩
    exact ⟨fun limit => .inr (.inl (hsegmentation limit)),
      fun _ _ => ⟨0, fun limit _ => .inl (hsegmentation limit)⟩⟩

/-- The sample returns its sum, on a stack of no more than it needs. -/
theorem quotients_run_evaluates :
    ∃ code image, Admissible quotientsText .empty code ∧ Image.parse code = .ok image ∧
      ∃ enough : Nat, ∀ limit : Int, enough ≤ limit →
        (run image limit (utf8 "main") (.fresh (.zeros 64))).outcome = .returned 10 := by
  obtain ⟨code, hcode⟩ := admissible_quotientsText
  obtain ⟨p, image, hparse, himage, hruns⟩ := compiled_run_evaluates hcode
  cases parse_quotientsText.symm.trans hparse
  obtain ⟨frame, hcompiled, hneeds⟩ := compiled_quotients hcode himage
  have hsize : (State.fresh (.zeros 64)).stack.size = 64 := Stack.size_zeros 64
  obtain ⟨enough, henough⟩ :=
    (hruns 79 (.fresh (.zeros 64)) (by decide) hsize).2 (.ok 10) evaluates_quotients
  refine ⟨code, image, hcode, himage, enough, fun limit hlimit => ?_⟩
  refine (henough limit hlimit).resolve_left (hcompiled.not_isSegmentation room_fresh limit ?_)
  rw [hneeds, hsize]
  decide

end WordC
