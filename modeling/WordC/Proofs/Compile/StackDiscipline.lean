import WordC.Proofs.Compile
/-!
How compiled code uses the stack.

The generator counts the words that its code has on the stack, and the machine keeps to
the count: at every instruction of a body, however often control has passed it, the stack
pointer is as far below the frame as the count says.  So the frame is written by
assignments only, the stack has room for every run if it has room for the greatest
count, and a function that returns leaves the stack as it found it.
-/

namespace WordC

open Asm Evaluation Machine Simulation
open Codegen hiding State push pop run

namespace Simulation

section Discipline

variable (settings : Settings) (p : Program) (frame : Frame)

/-- The lines of the body with the generator's count. -/
def body : List Site := bodySites settings frame.names.idxOf p

/-- The line of the body that the instruction with an index comes from. -/
def bodySite? (pc : Int) : Option Site :=
  siteAt? (entering frame).length (body settings p frame) pc

/-- The address of a local, which is as far below the frame base as its slot says. -/
def slotWord (machine : State) (x : Text) : Word :=
  machine.stack.top - 16 - Int64.ofNat (Frame.offset (frame.names.idxOf x))

/-- How the runs of a function use the stack of a machine. -/
structure StackDiscipline (image : Image) (machine : State) : Prop where
  /-- What a run executes is an instruction of a state that it reaches. -/
  reached : ∀ limit, ∀ pc ∈ (run image limit settings.entrySymbol machine).trail,
    ∃ s, Reaches image settings.entrySymbol machine s ∧ s.pc = pc
  /-- The lines of the body are the instructions behind the prologue. -/
  code : ∀ pc site, bodySite? settings p frame pc = some site →
    ∃ placed, image.fetch? pc = some placed ∧ site.line = .instruction placed.instruction
  /-- At every instruction of the body, up to an epilogue. -/
  pointers : ∀ s site, Reaches image settings.entrySymbol machine s →
    bodySite? settings p frame s.pc = some site → Outside site.line →
    s.registers.rbp = machine.stack.top - 16 ∧
      s.registers.rsp = s.registers.rbp - frame.size - Int64.ofNat (8 * site.depth)
  /-- At the first instruction of every statement. -/
  statements : ∀ s site, Reaches image settings.entrySymbol machine s →
    bodySite? settings p frame s.pc = some site → site.opens = true →
    s.registers.rsp = s.registers.rbp - frame.size
  /-- The word that a `push` writes lies below the frame or above it. -/
  pushes : ∀ s placed, Reaches image settings.entrySymbol machine s →
    image.fetch? s.pc = some placed → placed.instruction.op = .push →
    (s.registers.rsp - 8).toInt + 8 ≤ s.registers.rbp.toInt - frame.size.toInt ∨
      s.registers.rbp.toInt ≤ (s.registers.rsp - 8).toInt
  /-- A local changes by an assignment to it. -/
  locals : ∀ s s' x, Reaches image settings.entrySymbol machine s → Moves image s s' →
    x ∈ frame.names →
    s'.stack.load (slotWord frame machine x) ≠ s.stack.load (slotWord frame machine x) →
    ∃ site, bodySite? settings p frame s.pc = some site ∧ site.assigns = some x
  /-- Room for the greatest count is room for every run. -/
  room : 16 + frame.size.toInt + 8 * deepest (body settings p frame) ≤ machine.stack.size →
    ∀ limit, ¬ (run image limit settings.entrySymbol machine).outcome.IsSegmentation
  /-- A run that returns leaves the stack pointer at the top. -/
  returns : ∀ limit v, (run image limit settings.entrySymbol machine).outcome = .returned v →
    let registers := (run image limit settings.entrySymbol machine).state.registers
    registers.rsp = machine.stack.top ∧ registers.rbp = 0 ∧ registers.rbx = 0 ∧
      registers.rcx = 0 ∧ registers.rsi = 0

end Discipline

/-- A machine without room for the call runs nothing. -/
theorem not_reaches_empty {image : Image} {entry : Text} {machine s : State}
    (hsize : machine.stack.size = 0) : ¬ Reaches image entry machine s := by
  intro hs
  obtain ⟨pc, called, -, hpush, -⟩ := hs
  rw [push_empty hsize] at hpush
  cases hpush

namespace Compiled

variable {settings : Settings} {p : Program} {frame : Frame} {image : Image} {machine s : State}
  (h : Compiled settings p frame image)

include h

variable (room : Room machine.stack.size) (hs : Reaches image settings.entrySymbol machine s)

include room hs

theorem safe_of_reaches (n : Nat) : Safe image ((h.routine room).demand (Evaluates p)) n s := by
  obtain ⟨pc, called, hindex, hpush, hvisits⟩ := hs
  obtain ⟨s₀, hpush₀, hpc₀, hs₀, -⟩ := h.run_eq room
  cases hindex.symm.trans h.index?_entry
  cases hpush.symm.trans hpush₀
  exact Safe.of_visits (h.safe room hs₀ hpc₀) hvisits n

/-- Nothing is left to do where the machine has halted. -/
theorem here_of_reaches : (h.routine room).Here s := by
  by_cases hhalted : s.Halted
  · have hpc : s.pc = -1 := hhalted
    refine ⟨fun site hsite => ?_, fun p hp => ?_⟩
    · rw [hpc] at hsite
      have hlt : (-1 : Int) < (entering frame).length := by omega
      cases (siteAt?_of_lt hlt (body settings p frame)).symm.trans hsite
    · rw [hpc] at hp
      cases hp
  · exact (h.safe_of_reaches room hs 0).here hhalted

theorem pointers_of_reaches {site : Site} (hsite : bodySite? settings p frame s.pc = some site)
    (hline : Outside site.line) :
    s.registers.rbp = machine.stack.top - 16 ∧
      s.registers.rsp = s.registers.rbp - frame.size - Int64.ofNat (8 * site.depth) := by
  obtain ⟨hrbp, hrsp⟩ := (h.here_of_reaches room hs).pointers site hsite hline
  have hbase : machine.stack.top - 16 = Stack.below machine.stack.size 2 := by
    rw [← Stack.below_zero]
    exact Stack.below_sub machine.stack.size 0 2
  refine ⟨hrbp.trans hbase.symm, ?_⟩
  rw [hrsp, hrbp, h.size_eq, Stack.below_sub, Stack.below_sub]
  rfl

theorem clear_of_reaches {placed : Placed} (hfetch : image.fetch? s.pc = some placed)
    (hpush : placed.instruction.op = .push) :
    (s.registers.rsp - 8).toInt + 8 ≤ s.registers.rbp.toInt - frame.size.toInt ∨
      s.registers.rbp.toInt ≤ (s.registers.rsp - 8).toInt := by
  have hclear := (h.here_of_reaches room hs).clear placed hfetch hpush
  rw [h.size_toInt]
  exact hclear

theorem assigned_of_reaches {s' : State} {x : Text} (hmoves : Moves image s s')
    (hx : x ∈ frame.names)
    (hchanged : s'.stack.load (slotWord frame machine x) ≠
      s.stack.load (slotWord frame machine x)) :
    ∃ site, bodySite? settings p frame s.pc = some site ∧ site.assigns = some x := by
  have hword : slotWord frame machine x =
      Stack.below machine.stack.size (frame.names.idxOf x + 3) := by
    have hslot : frame.names.idxOf x + 3 = 0 + 2 + (frame.names.idxOf x + 1) := by omega
    rw [slotWord, ← Stack.below_zero, hslot, ← Stack.below_sub, ← Stack.below_sub]
    rfl
  have hlt : frame.names.idxOf x < frame.words :=
    Nat.lt_of_lt_of_le (List.idxOf_lt_length_iff.2 hx) (Frame.names_le_words h.sound)
  rw [hword] at hchanged
  rcases ((h.safe_of_reaches room hs 1).of_moves hmoves).1 _ hlt with hsame | ⟨y, hy, hslot⟩
  · exact absurd hsame hchanged
  · obtain ⟨site, hsite, hassigns⟩ := Option.bind_eq_some_iff.1 hy
    rw [(List.idxOf_inj hx).1 hslot.symm]
    exact ⟨site, hsite, hassigns⟩

omit hs

theorem stackDiscipline : StackDiscipline settings p frame image machine where
  reached limit := reaches_of_run image limit settings.entrySymbol machine
  code _ _ hsite := fetch_of_siteAt? (h.at_body room) hsite
  pointers _ _ hs hsite hline := h.pointers_of_reaches room hs hsite hline
  statements s site hs hsite hopens := by
    have hbalanced := balanced_body settings frame.names.idxOf h.wellFormed
    obtain ⟨hdepth, hline⟩ := hbalanced.opens site (mem_of_siteAt? hsite) hopens
    have hrsp := (h.pointers_of_reaches room hs hsite hline).2
    rw [hdepth] at hrsp
    rw [hrsp]
    exact Int64.sub_zero _
  pushes _ _ hs hfetch hpush := h.clear_of_reaches room hs hfetch hpush
  locals _ _ _ hs hmoves hx hchanged := h.assigned_of_reaches room hs hmoves hx hchanged
  room hneeds limit := h.not_isSegmentation room limit hneeds
  returns limit _ hreturned := h.registers_of_returned room limit hreturned

end Compiled

/-- Nothing runs without room for the call. -/
theorem stackDiscipline_empty {settings : Settings} {p : Program} {frame : Frame} {image : Image}
    {machine : State} (h : Compiled settings p frame image) (hsize : machine.stack.size = 0) :
    StackDiscipline settings p frame image machine where
  reached limit := reaches_of_run image limit settings.entrySymbol machine
  code _ _ hsite := fetch_of_siteAt? (h.at_body ⟨rfl, by decide, Nat.le_refl 16⟩) hsite
  pointers _ _ hs := absurd hs (not_reaches_empty hsize)
  statements _ _ hs := absurd hs (not_reaches_empty hsize)
  pushes _ _ hs := absurd hs (not_reaches_empty hsize)
  locals _ _ _ hs := absurd hs (not_reaches_empty hsize)
  room hroom := by
    rw [h.size_toInt] at hroom
    omega
  returns limit _ hreturned := by
    rw [h.run_empty hsize] at hreturned
    cases hreturned

end Simulation

/-- The depths in the layout of a compiled program are the generator's count, the greatest of
them is the greatest value of the count, and every run keeps to them. -/
theorem compiled_stack_discipline {source code : Text} {settings : Settings}
    (h : Admissible source settings code) :
    ∃ p lines final image, Program.parse source = .ok p ∧
      Codegen.run settings.withDefaults p = .ok lines final ∧
      lines = prologue settings.withDefaults.entrySymbol final.frame ++
        (body settings.withDefaults p final.frame).map Site.line ++ epilogue ∧
      code = render lines ∧ Image.parse code = .ok image ∧
      (∀ n, Tracks (node settings.withDefaults.labelStem n)) ∧
      Counted 0 (body settings.withDefaults p final.frame) 0 ∧
      final.peak = deepest (body settings.withDefaults p final.frame) ∧
      ∀ (bytes : Nat) (machine : State), bytes < 2 ^ 62 → machine.stack.size = bytes / 16 * 16 →
        StackDiscipline settings.withDefaults p final.frame image machine := by
  obtain ⟨p, lines, final, image, hparse, hrun, hlines, hcode, himage, hcompiled⟩ :=
    h.exists_compiled
  refine ⟨p, lines, final, image, hparse, hrun, hlines, hcode, himage,
    fun n => (gauges_node _ n).tracks, (balanced_body _ _ hcompiled.wellFormed).counted,
    peak_of_run hcompiled.wellFormed hrun, fun bytes machine hbytes hsize => ?_⟩
  rcases room_or_empty hbytes hsize with room | hempty
  · exact hcompiled.stackDiscipline room
  · exact stackDiscipline_empty hcompiled hempty

/-- Two locals and four words are all that the sample needs below its call: no run of it
leaves the stack, and one that returns has given all of it back. -/
theorem quotients_stack_discipline :
    ∃ code image, Admissible quotientsText .empty code ∧ Image.parse code = .ok image ∧
      (∀ limit,
        ¬ (run image limit (utf8 "main") (.fresh (.zeros 64))).outcome.IsSegmentation) ∧
      ∃ limit, (run image limit (utf8 "main") (.fresh (.zeros 64))).outcome = .returned 10 ∧
        let registers := (run image limit (utf8 "main") (.fresh (.zeros 64))).state.registers
        registers.rsp = (Stack.zeros 64).top ∧ registers.rbp = 0 := by
  obtain ⟨code, hcode⟩ := admissible_quotientsText
  obtain ⟨p, lines, final, image, hparse, hrun, -, -, himage, -, -, -, hruns⟩ :=
    compiled_stack_discipline hcode
  cases parse_quotientsText.symm.trans hparse
  have hsize : (State.fresh (.zeros 64)).stack.size = 64 := Stack.size_zeros 64
  have hdiscipline := hruns 79 (.fresh (.zeros 64)) (by decide) hsize
  have hfits : ∀ limit,
      ¬ (run image limit (utf8 "main") (.fresh (.zeros 64))).outcome.IsSegmentation := by
    refine hdiscipline.room ?_
    rw [hsize]
    exact Int.le_of_eq (needs_quotients hrun)
  obtain ⟨frame, hcompiled, -⟩ := compiled_quotients hcode himage
  obtain ⟨enough, henough⟩ := hcompiled.exists_limit_gives room_fresh evaluates_quotients
  have hreturned : (run image enough (utf8 "main") (.fresh (.zeros 64))).outcome = .returned 10 :=
    (henough enough (Int.le_refl _)).resolve_left (hfits enough)
  obtain ⟨hrsp, hrbp, -⟩ := hdiscipline.returns enough 10 hreturned
  exact ⟨code, image, hcode, himage, hfits, enough, hreturned, hrsp, hrbp⟩

end WordC
