import WordC.Proofs.Codegen.FrameSize
import WordC.Proofs.Codegen.Listing
import WordC.Proofs.Simulation.Statement
/-!
A whole function, from the call to the return.

The sites of the body are numbered by the instructions of the image, so every index
behind the prologue has the site that the generator wrote there.  The prologue turns
the state of a call into the configuration in which the body starts, with all locals
zero, and the last epilogue takes the value of a program that does not return.
-/

namespace WordC
namespace Simulation

open Asm Evaluation Machine
open Codegen hiding State push pop run

/-! ## The body -/

section Body

variable {r : Routine} {accepts : Except Stop Word → Prop} {P : State → Prop} {settings : Settings}
  {slot : Text → Nat} {pos : Nat}

/-- Announcements are no code. -/
theorem at_programSites {p : Program} {b : Nat} :
    r.At pos (programSites settings slot b p) ↔
      r.At pos (allSites settings.labelStem slot b p) := by
  induction p generalizing pos b with
  | nil => exact Iff.rfl
  | cons n rest ih =>
    rw [programSites, allSites, List.append_assoc]
    split
    · have hwidth : width (plain 0 [announcement n]) = 0 := rfl
      rw [Routine.at_append, Routine.at_append, Routine.at_append, ih, hwidth]
      exact and_iff_right trivial
    · rw [List.nil_append, Routine.at_append, Routine.at_append, ih]

theorem width_programSites (p : Program) (b : Nat) :
    width (programSites settings slot b p) = width (allSites settings.labelStem slot b p) := by
  induction p generalizing b with
  | nil => rfl
  | cons n rest ih =>
    rw [programSites, allSites, width_append, width_append, width_append, ih]
    split
    · exact congrArg (· + _) (Nat.zero_add _)
    · exact congrArg (· + _) (Nat.zero_add _)

/-- The body of an empty program gives zero. -/
theorem ready_nothing (hP : Closed r.image (r.demand accepts) P)
    (hat : r.At pos (bodySites settings slot []))
    (h : Ready r P (pos + width (bodySites settings slot [])) .initial) :
    Ready r P pos .initial := by
  intro rdi rdx flags
  exact good_does hP hat.1 rfl (does_mov_immediate _ 0) (h rdi rdx flags)

theorem bodySites_cons (n : Node) (rest : Program) :
    bodySites settings slot (n :: rest) = programSites settings slot 0 (n :: rest) := rfl

variable {p : Program} (hp : Node.areWellFormed p = true)
  (hnames : ∀ x ∈ Node.identsAll p, x ∈ r.names)
  (hat : r.At pos (bodySites settings r.names.idxOf p))

include hp hnames hat

theorem bounded_body (budget : Nat)
    (h : ∀ k, ExecAll p .initial k → Continues r accepts (r.Bounded accepts budget)
      (pos + width (bodySites settings r.names.idxOf p)) k) :
    Ready r (r.Bounded accepts budget) pos .initial := by
  cases p with
  | nil => exact ready_nothing (Safe.closed budget) hat (h _ .nil)
  | cons n rest =>
    rw [bodySites_cons, width_programSites] at h
    exact bounded_statements (n :: rest) hp hnames budget 0 pos _ (at_programSites.1 hat) h

theorem ready_body (hP : Closed r.image (r.demand accepts) P) {k : Ending}
    (h : ExecAll p .initial k)
    (hk : Continues r accepts P (pos + width (bodySites settings r.names.idxOf p)) k) :
    Ready r P pos .initial := by
  cases p with
  | nil =>
    cases h
    exact ready_nothing hP hat hk
  | cons n rest =>
    rw [bodySites_cons, width_programSites] at hk
    exact ready_statements hP h hp hnames (at_programSites.1 hat) hk

end Body

/-! ## Sites by index -/

/-- The site of the instruction with an index, where `before` instructions stand in front
of the sites. -/
def siteAt? (before : Nat) (sites : List Site) (pc : Int) : Option Site :=
  if pc < before then none else (sites.filter Site.isInstruction)[(pc - before).toNat]?

theorem siteAt?_add (before : Nat) (sites : List Site) (k : Nat) :
    siteAt? before sites (before + k : Nat) = (sites.filter Site.isInstruction)[k]? := by
  have hle : ¬ ((before + k : Nat) : Int) < before := by omega
  have hindex : (((before + k : Nat) : Int) - before).toNat = k := by omega
  rw [siteAt?, if_neg hle, hindex]

theorem width_eq (sites : List Site) : width sites = (sites.filter Site.isInstruction).length :=
  List.countP_eq_length_filter

theorem mem_of_siteAt? {before : Nat} {sites : List Site} {pc : Int} {s : Site}
    (h : siteAt? before sites pc = some s) : s ∈ sites := by
  unfold siteAt? at h
  split at h
  · cases h
  · exact (List.mem_filter.1 (List.mem_of_getElem? h)).1

theorem siteAt?_of_lt {before : Nat} {pc : Int} (h : pc < before) (sites : List Site) :
    siteAt? before sites pc = none :=
  if_pos h

theorem siteAt?_of_le {before : Nat} {sites : List Site} {k : Nat} (h : width sites ≤ k) :
    siteAt? before sites (before + k : Nat) = none := by
  rw [siteAt?_add, List.getElem?_eq_none]
  rwa [← width_eq]

/-- Lines behind sites stand behind their instructions. -/
theorem holds_sites {image : Image} {pos : Nat} {sites : List Site} {lines : List Line}
    (h : image.Holds pos (sites.map Site.line ++ lines)) :
    image.Holds pos (sites.map Site.line) ∧ image.Holds (pos + width sites) lines := by
  induction sites generalizing pos with
  | nil => exact ⟨trivial, h⟩
  | cons s rest ih =>
    obtain ⟨line, depth, opens, assigns⟩ := s
    rw [width_cons, ← Nat.add_assoc]
    cases line with
    | instruction i => exact ⟨⟨h.1, (ih h.2).1⟩, (ih h.2).2⟩
    | label name => exact ⟨⟨h.1, (ih h.2).1⟩, (ih h.2).2⟩
    | intelNotation | global name | comment remark => exact ih h

/-- The sites stand where their lines do.  The induction is over the sites that are left
behind those that have been passed. -/
theorem at_of_holds {r : Routine} {before : Nat} {passed sites : List Site}
    (hsite : r.site? = siteAt? before (passed ++ sites))
    (h : r.image.Holds (before + width passed) (sites.map Site.line)) :
    r.At (before + width passed) sites := by
  induction sites generalizing passed with
  | nil => trivial
  | cons s rest ih =>
    have hsite' : r.site? = siteAt? before ((passed ++ [s]) ++ rest) := by
      rw [hsite, List.append_assoc, List.singleton_append]
    have hwidth := width_append passed [s]
    have ih' := ih hsite'
    obtain ⟨line, depth, opens, assigns⟩ := s
    cases line with
    | instruction i =>
      rw [hwidth] at ih'
      refine ⟨⟨h.1, opens, ?_⟩, ih' h.2⟩
      rw [hsite, siteAt?_add, List.filter_append, width_eq,
        List.getElem?_append_right (Nat.le_refl _), Nat.sub_self]
      rfl
    | label name =>
      rw [hwidth] at ih'
      exact ⟨h.1, ih' h.2⟩
    | intelNotation | global name | comment remark =>
      rw [hwidth] at ih'
      exact ih' h

/-- A site with an index stands in the image. -/
theorem fetch_of_siteAt? {r : Routine} {before : Nat} {sites : List Site}
    (h : r.At before sites) {pc : Int} {site : Site} (hsite : siteAt? before sites pc = some site) :
    ∃ p, r.image.fetch? pc = some p ∧ site.line = .instruction p.instruction := by
  obtain ⟨k, rfl⟩ : ∃ k : Nat, pc = (before + k : Nat) := by
    unfold siteAt? at hsite
    split at hsite
    · cases hsite
    · exact ⟨(pc - before).toNat, by omega⟩
  rw [siteAt?_add] at hsite
  induction sites generalizing before k with
  | nil => cases hsite
  | cons s rest ih =>
    obtain ⟨line, depth, opens, assigns⟩ := s
    cases line with
    | instruction i =>
      cases k with
      | zero =>
        obtain ⟨⟨⟨p, hp, hi⟩, -⟩, -⟩ := h
        cases hsite
        exact ⟨p, hp, by rw [hi]⟩
      | succ k =>
        have hrest := ih h.2 k hsite
        rwa [Nat.add_assoc, Nat.add_comm 1] at hrest
    | label name => exact ih h.2 k hsite
    | intelNotation | global name | comment remark => exact ih h k hsite

/-! ## Entering -/

/-- The machine has been called and the body has not started: all is zero but the words
above the frame. -/
structure Entered (r : Routine) (rbp : Word) (word : Nat) (s : State) : Prop where
  rax : s.registers.rax = 0
  rdi : s.registers.rdi = 0
  rdx : s.registers.rdx = 0
  flags : s.flags = none
  rbx : s.registers.rbx = 0
  rcx : s.registers.rcx = 0
  rsi : s.registers.rsi = 0
  rbp : s.registers.rbp = rbp
  rsp : s.registers.rsp = Stack.below r.size word
  memory : Memory r .zero [] s.stack

section Prologue

variable {r : Routine} {accepts : Except Stop Word → Prop} {P : State → Prop}
  (hP : Closed r.image (r.demand accepts) P) {s : State} {pos : Nat}
  (hsite : r.site? pos = none) (hpc : s.pc = pos)

include hP hsite hpc

/-- The frame is reserved. -/
theorem entered_sub
    (hfetch : ∃ p, r.image.fetch? pos = some p ∧ p.instruction =
      ⟨.arith .sub, [.register .rsp, .immediate (Int64.ofNat (8 * r.words))]⟩)
    (hs : Entered r (Stack.below r.size 2) 2 s) (h : Ready r P (pos + 1) .initial) : P s := by
  obtain ⟨p, hp, hi⟩ := hfetch
  have hexec := execute_arith_immediate r.image s.counted .sub .rsp (Int64.ofNat (8 * r.words))
  rw [← hi] at hexec
  rw [← hpc] at hp hsite
  refine hP.step (not_halted hpc) hp ⟨?_, ?_⟩ hexec (r.kept_refl _ _) (h 0 0 none _ ?_ ?_)
  · intro site hfound
    cases hsite.symm.trans hfound
  · intro p' hp' hpush
    rw [Option.some.inj (hp'.symm.trans hp), hi] at hpush
    cases hpush
  · refine ⟨hs.rax, hs.rdi, hs.rdx, hs.flags, hs.rbx, hs.rcx, hs.rsi, hs.rbp, ?_, hs.memory⟩
    change s.registers.rsp - Int64.ofNat (8 * r.words) = _
    rw [hs.rsp]
    exact Stack.below_sub r.size 2 r.words
  · change s.pc + 1 = _
    rw [hpc]
    rfl

theorem entered_mov
    (hfetch : ∃ p, r.image.fetch? pos = some p ∧
      p.instruction = ⟨.mov, [.register .rbp, .register .rsp]⟩)
    (hs : Entered r 0 2 s)
    (h : ∀ s', Entered r (Stack.below r.size 2) 2 s' → s'.pc = (pos + 1 : Nat) → P s') : P s := by
  obtain ⟨p, hp, hi⟩ := hfetch
  have hexec := execute_mov r.image s.counted .rbp .rsp
  rw [← hi] at hexec
  rw [← hpc] at hp hsite
  refine hP.step (not_halted hpc) hp ⟨?_, ?_⟩ hexec (r.kept_refl _ _) (h _ ?_ ?_)
  · intro site hfound
    cases hsite.symm.trans hfound
  · intro p' hp' hpush
    rw [Option.some.inj (hp'.symm.trans hp), hi] at hpush
    cases hpush
  · exact ⟨hs.rax, hs.rdi, hs.rdx, hs.flags, hs.rbx, hs.rcx, hs.rsi, hs.rsp, hs.rsp, hs.memory⟩
  · change s.pc + 1 = _
    rw [hpc]
    rfl

/-- The caller's `rbp` is saved above the frame. -/
theorem entered_push
    (hfetch : ∃ p, r.image.fetch? pos = some p ∧ p.instruction = ⟨.push, [.register .rbp]⟩)
    (hs : Entered r 0 1 s)
    (h : ∀ s', Entered r 0 2 s' → s'.pc = (pos + 1 : Nat) → P s') : P s := by
  obtain ⟨p, hp, hi⟩ := hfetch
  have hsize := r.size_ge
  have hlt := r.size_lt
  have hwords := r.words_lt
  have hrsp : s.registers.rsp - 8 = Stack.below r.size 2 := by
    rw [hs.rsp]
    exact Stack.below_sub r.size 1 1
  have hhas : s.stack.Has 2 := hs.memory.has_iff.2 ⟨by omega, by omega⟩
  have hread : read (.register .rbp) s.counted = .ok 0 s.counted := by
    rw [← hs.rbp]
    rfl
  have hstore : s.counted.stack.store (s.counted.registers.rsp - 8) 0 = .ok (s.stack.put 2 0) := by
    change s.stack.store (s.registers.rsp - 8) 0 = _
    rw [hrsp]
    exact hs.memory.store_has hhas 0
  have hmemory : Memory r .zero [] (s.stack.put 2 0) := by
    refine ⟨?_, ?_, Stack.word_put_self hhas 0, fun x hx hplace => ?_, trivial⟩
    · rw [Stack.size_put, hs.memory.size]
    · rw [Stack.word_put_ne hhas (by omega), hs.memory.link]
    · rw [Stack.word_put_ne hhas (by rw [Routine.place]; omega)]
      exact hs.memory.locals x hx (has_put.1 hplace)
  have hexec := execute_push r.image hread hstore
  rw [← hi] at hexec
  rw [← hpc] at hp hsite
  refine hP.step (not_halted hpc) hp ⟨?_, fun _ _ _ => .inr ?_⟩ hexec (fun j hj => .inl ?_)
    (h _ ?_ ?_)
  · intro site hfound
    cases hsite.symm.trans hfound
  · rw [hs.rbp, hrsp, Stack.toInt_below hlt (by omega)]
    change (0 : Int) ≤ _
    omega
  · exact hs.memory.load_put_ne hmemory hhas (by omega) (by omega) (by omega)
  · exact ⟨hs.rax, hs.rdi, hs.rdx, hs.flags, hs.rbx, hs.rcx, hs.rsi, hs.rbp, hrsp, hmemory⟩
  · change s.pc + 1 = _
    rw [hpc]
    rfl

end Prologue

/-! ## Calling -/

/-- A call leaves the return address on a stack that is zero otherwise. -/
theorem entered_call {r : Routine} {machine : State} (hsize : machine.stack.size = r.size) :
    ∃ s, Machine.push State.haltAddress (machine.reset 0) = .ok () s ∧ s.pc = 0 ∧
      Entered r 0 1 s := by
  have hge := r.size_ge
  have hmod := r.size_mod
  have hlt := r.size_lt
  have hzeros : (Stack.zeros machine.stack.size).size = r.size := by
    rw [Stack.size_zeros, hsize]
  have hhas : (Stack.zeros machine.stack.size).Has 1 := ⟨by omega, by omega⟩
  have hrsp : machine.stack.top - 8 = Stack.below r.size 1 := by
    rw [← Stack.below_zero, hsize]
    exact Stack.below_sub r.size 0 1
  have hstore := Stack.store_below (by omega) (by omega) hhas State.haltAddress
  rw [hzeros, ← hrsp] at hstore
  have hpush := push_of_ok (s := machine.reset 0) hstore
  refine ⟨_, hpush, rfl, rfl, rfl, rfl, rfl, rfl, rfl, rfl, rfl, hrsp, ?_⟩
  refine ⟨?_, Stack.word_put_self hhas _, ?_, fun x _ _ => ?_, trivial⟩
  · rw [Stack.size_put, hzeros]
  · rw [Stack.word_put_ne hhas (by omega), Stack.word_zeros]
  · rw [Stack.word_put_ne hhas (by rw [Routine.place]; omega), Stack.word_zeros]
    rfl

/-- There is no room for the return address on an empty stack. -/
theorem push_empty {machine : State} (hsize : machine.stack.size = 0) (v : Word) (pc : Int) :
    Machine.push v (machine.reset pc) =
      .error (.fault (.outsideStack (Stack.below 0 1))) (machine.reset pc) := by
  have hzeros : (Stack.zeros machine.stack.size).size = 0 := by
    rw [Stack.size_zeros, hsize]
  have hrsp : machine.stack.top - 8 = Stack.below 0 1 := by
    rw [← Stack.below_zero, hsize]
    exact Stack.below_sub 0 0 1
  have hstore := Stack.store_below_outside (s := Stack.zeros machine.stack.size) (j := 1) (by omega)
    (by omega) (by omega) (by omega) v
  rw [hzeros, ← hrsp] at hstore
  rw [← hrsp]
  exact push_of_fault (s := machine.reset pc) hstore

/-! ## Functions -/

/-- The stack has room for a call. -/
structure Room (size : Nat) : Prop where
  size_mod : size % 16 = 0
  size_lt : size < 2 ^ 62
  size_ge : 16 ≤ size

/-- The function of a program stands in the image. -/
structure Compiled (settings : Settings) (p : Program) (frame : Frame) (image : Image) : Prop where
  wellFormed : Node.areWellFormed p = true
  names : ∀ x ∈ Node.identsAll p, x ∈ frame.names
  sound : frame.Sound
  slots : frame.slots < 2 ^ 58
  holds : image.Holds 0
    (functionLines settings.entrySymbol frame (bodySites settings frame.names.idxOf p))

theorem width_entering (frame : Frame) :
    width (plain 0 (entering frame)) = (entering frame).length := by
  rw [entering]
  split
  · rfl
  · rfl

namespace Compiled

variable {settings : Settings} {p : Program} {frame : Frame} {image : Image}
  (h : Compiled settings p frame image)

include h

theorem index?_entry : image.index? settings.entrySymbol = some 0 := by
  have hholds := h.holds
  rw [functionLines_eq] at hholds
  exact hholds.1

/-- Where the three parts of the function stand. -/
theorem holds_parts :
    image.Holds 0 (entering frame) ∧
      image.Holds (entering frame).length
        ((bodySites settings frame.names.idxOf p).map Site.line) ∧
      image.Holds ((entering frame).length + width (bodySites settings frame.names.idxOf p))
        epilogue := by
  have hholds := h.holds
  rw [functionLines_eq] at hholds
  have hrest := hholds.2
  rw [← map_line_plain 0 (entering frame), List.append_assoc] at hrest
  obtain ⟨hentering, hrest⟩ := holds_sites hrest
  rw [width_entering, Nat.zero_add] at hrest
  rw [map_line_plain] at hentering
  exact ⟨hentering, holds_sites hrest⟩

theorem size_eq : frame.size = Int64.ofNat (8 * frame.words) :=
  Frame.size_eq (Nat.lt_trans h.slots (by omega))

theorem words_lt : frame.words < 2 ^ 59 := by
  have hslots := h.slots
  rw [Frame.words]
  omega

/-- The function on a stack. -/
def routine {size : Nat} (room : Room size) : Routine where
  image := image
  size := size
  names := frame.names
  words := frame.words
  deepest := deepest (bodySites settings frame.names.idxOf p)
  site? := siteAt? (entering frame).length (bodySites settings frame.names.idxOf p)
  size_mod := room.size_mod
  size_lt := room.size_lt
  size_ge := room.size_ge
  names_le := Frame.names_le_words h.sound
  words_lt := h.words_lt
  count_le _ _ hsite := (countAfter_le_deepest (mem_of_siteAt? hsite)).2

variable {size : Nat} (room : Room size)

theorem at_body :
    (h.routine room).At (entering frame).length (bodySites settings frame.names.idxOf p) := by
  have hsite : (h.routine room).site? =
      siteAt? (entering frame).length ([] ++ bodySites settings frame.names.idxOf p) := rfl
  exact at_of_holds hsite h.holds_parts.2.1

/-- The last epilogue, which belongs to no statement. -/
theorem leaves :
    (h.routine room).Leaves
      ((entering frame).length + width (bodySites settings frame.names.idxOf p)) := by
  refine ⟨h.holds_parts.2.2, fun k site hsite _ => ?_⟩
  have hnone : (h.routine room).site? ((entering frame).length +
      width (bodySites settings frame.names.idxOf p) + k : Nat) = none := by
    rw [Nat.add_assoc]
    exact siteAt?_of_le (Nat.le_add_right _ _)
  cases hnone.symm.trans hsite

section Calls

variable {accepts : Except Stop Word → Prop} {P : State → Prop} {s : State}
  (hP : Closed image ((h.routine room).demand accepts) P)

include hP

/-- What holds where the body starts holds where the function is called. -/
theorem entered (hready : Ready (h.routine room) P (entering frame).length .initial)
    (hs : Entered (h.routine room) 0 1 s) (hpc : s.pc = 0) : P s := by
  have hholds := h.holds_parts.1
  have hsite : ∀ k < (entering frame).length, (h.routine room).site? k = none := fun k hk =>
    siteAt?_of_lt (by omega) _
  rw [entering] at hholds hready hsite
  obtain ⟨hpush, hmov, hrest⟩ := hholds
  refine entered_push hP (hsite 0 (by simp)) hpc hpush hs fun s₁ hs₁ hpc₁ => ?_
  refine entered_mov hP (hsite 1 (by simp)) hpc₁ hmov hs₁ fun s₂ hs₂ hpc₂ => ?_
  have hsize := h.size_eq
  split at hready
  · next hpositive =>
    rw [if_pos hpositive] at hrest hsite
    rw [hsize] at hrest
    exact entered_sub hP (hsite 2 (by simp)) hpc₂ hrest.1 hs₂ hready
  · next hnone =>
    -- A frame without words is not reserved.
    have hwords : frame.words = 0 := by
      have hlt := h.words_lt
      rw [hsize, Int64.lt_iff_toInt_lt, Int64.toInt_ofNat_of_lt (by omega)] at hnone
      change ¬ (0 : Int) < _ at hnone
      omega
    refine hready 0 0 none s₂ ?_ hpc₂
    refine ⟨hs₂.rax, hs₂.rdi, hs₂.rdx, hs₂.flags, hs₂.rbx, hs₂.rcx, hs₂.rsi, hs₂.rbp, ?_, hs₂.memory⟩
    rw [hs₂.rsp, Routine.topmost]
    change Stack.below size 2 = Stack.below size (2 + frame.words + 0)
    rw [hwords]

/-- The end of the body leads to the result. -/
theorem continues {k : Ending} (hk : accepts k.result) :
    Continues (h.routine room) accepts P
      ((entering frame).length + width (bodySites settings frame.names.idxOf p)) k := by
  cases k with
  | next env => exact fun rdi rdx flags => good_epilogue hP (h.leaves room) rfl hk
  | returned v => exact hk
  | stopped stop => exact hk

end Calls

/-- Every run meets the demand, and has the result of the program if it has one. -/
theorem safe {s : State} (hs : Entered (h.routine room) 0 1 s) (hpc : s.pc = 0) (n : Nat) :
    Safe image ((h.routine room).demand (Evaluates p)) n s := by
  have hP : Closed image ((h.routine room).demand (Evaluates p)) _ := Safe.closed n
  refine h.entered room hP ?_ hs hpc
  refine bounded_body h.wellFormed h.names (h.at_body room) n fun k hk => ?_
  exact h.continues room hP ⟨k, hk, rfl⟩

/-- The function of a program with a result returns or faults. -/
theorem halts {result : Except Stop Word} (heval : Evaluates p result) {s : State}
    (hs : Entered (h.routine room) 0 1 s) (hpc : s.pc = 0) : Halts image s := by
  obtain ⟨k, hk, -⟩ := heval
  have hP : Closed image ((h.routine room).demand fun _ => True) (Halts image) :=
    Halts.closed id
  refine h.entered room hP ?_ hs hpc
  exact ready_body h.wellFormed h.names (h.at_body room) hP hk (h.continues room hP trivial)

end Compiled

end Simulation
end WordC
