import Mathlib.Data.List.Basic
import WordC.Proofs.Codegen.Depth
import WordC.Proofs.Evaluation
import WordC.Proofs.Machine.Run
import WordC.Proofs.Machine.Stack
/-!
A compiled function in the machine.

A routine is the function together with the stack it runs on.  The words of the stack
are counted down from the top: the first holds the return address, the second the
caller's `rbp`, then the frame follows and behind it the values that the generator
counts.  A configuration is what a point of the code may know of the machine, and
`Matches` relates it to the states.
-/

namespace WordC
namespace Simulation

open Asm Evaluation Machine
open Codegen hiding State push pop run

structure Routine where
  image : Image
  /-- The bytes of the stack. -/
  size : Nat
  /-- The locals in slot order. -/
  names : List Text
  /-- The words of the frame. -/
  words : Nat
  /-- The greatest value of the generator's count. -/
  deepest : Nat
  /-- What the generator knows of the instruction with an index. -/
  site? : Int → Option Site
  size_mod : size % 16 = 0
  size_lt : size < 2 ^ 62
  size_ge : 16 ≤ size
  names_le : names.length ≤ words
  words_lt : words < 2 ^ 59
  count_le : ∀ pc site, site? pc = some site → countAfter site.depth site.line ≤ deepest

namespace Routine

variable (r : Routine)

/-- The word of a local. -/
def place (x : Text) : Nat := r.names.idxOf x + 3

/-- The word on top of so many values. -/
def topmost (values : Nat) : Nat := 2 + r.words + values

variable {r}

theorem place_lt {x : Text} (hx : x ∈ r.names) : r.place x < 3 + r.words := by
  have hlt := List.idxOf_lt_length_iff.2 hx
  have := r.names_le
  rw [place]
  omega

theorem place_ne {x y : Text} (hx : x ∈ r.names) (hne : x ≠ y) : r.place x ≠ r.place y := by
  intro heq
  refine hne ?_
  have hidx : r.names.idxOf x = r.names.idxOf y := by
    rw [place, place] at heq
    omega
  exact (List.idxOf_inj hx).1 hidx

end Routine

/-! ## Memory -/

/-- The values lie on the stack, the first one on top, behind so many words. -/
def Held (stack : Stack) (behind : Nat) : List Word → Prop
  | [] => True
  | v :: rest =>
    stack.Has (behind + rest.length + 1) ∧ stack.word (behind + rest.length + 1) = v ∧
      Held stack behind rest

theorem has_put {stack : Stack} {j k : Nat} {v : Word} : (stack.put k v).Has j ↔ stack.Has j := by
  rw [Stack.Has, Stack.Has, Stack.size_put]

/-- A word that is not among the values may change. -/
theorem Held.put {stack : Stack} {behind : Nat} {values : List Word} (h : Held stack behind values)
    {k : Nat} (hk : stack.Has k) (hne : k ≤ behind ∨ behind + values.length < k) (v : Word) :
    Held (stack.put k v) behind values := by
  induction values with
  | nil => trivial
  | cons w rest ih =>
    obtain ⟨hhas, hword, hrest⟩ := h
    rw [List.length_cons] at hne
    refine ⟨has_put.2 hhas, ?_, ih hrest (by omega)⟩
    rw [Stack.word_put_ne hk (by omega), hword]

/-- The words above the code's own, the locals and the values. -/
structure Memory (r : Routine) (store : Store) (values : List Word) (stack : Stack) : Prop where
  size : stack.size = r.size
  link : stack.word 1 = State.haltAddress
  caller : stack.word 2 = 0
  locals : ∀ x ∈ r.names, stack.Has (r.place x) → stack.word (r.place x) = store x
  values : Held stack (2 + r.words) values

namespace Memory

variable {r : Routine} {store : Store} {values : List Word} {stack : Stack}

theorem has_iff (h : Memory r store values stack) {j : Nat} :
    stack.Has j ↔ 0 < j ∧ 8 * j ≤ r.size := by
  rw [Stack.Has, h.size]

/-- The values that are there fit, so the next word has an address. -/
theorem topmost_lt (h : Memory r store values stack) : 8 * (r.topmost values.length + 1) < 2 ^ 63 := by
  have hsize := r.size_lt
  have hwords := r.words_lt
  rw [Routine.topmost]
  cases values with
  | nil =>
    rw [List.length_nil]
    omega
  | cons v rest =>
    have hhas := (h.has_iff.1 h.values.1).2
    rw [List.length_cons]
    omega

theorem push (h : Memory r store values stack) (v : Word)
    (hhas : stack.Has (r.topmost values.length + 1)) :
    Memory r store (v :: values) (stack.put (r.topmost values.length + 1) v) where
  size := by rw [Stack.size_put, h.size]
  link := by
    rw [Stack.word_put_ne hhas (by rw [Routine.topmost]; omega), h.link]
  caller := by
    rw [Stack.word_put_ne hhas (by rw [Routine.topmost]; omega), h.caller]
  locals x hx hplace := by
    have hlt := Routine.place_lt hx
    rw [Stack.word_put_ne hhas (by rw [Routine.topmost]; omega)]
    exact h.locals x hx (has_put.1 hplace)
  values := by
    refine ⟨has_put.2 hhas, Stack.word_put_self hhas v, h.values.put hhas (.inr ?_) v⟩
    rw [Routine.topmost]
    omega

theorem pop {v : Word} (h : Memory r store (v :: values) stack) : Memory r store values stack :=
  ⟨h.size, h.link, h.caller, h.locals, h.values.2.2⟩

theorem assign (h : Memory r store values stack) {x : Text} (hx : x ∈ r.names)
    (hhas : stack.Has (r.place x)) (v : Word) :
    Memory r (store.set x v) values (stack.put (r.place x) v) where
  size := by rw [Stack.size_put, h.size]
  link := by
    rw [Stack.word_put_ne hhas (by rw [Routine.place]; omega), h.link]
  caller := by
    rw [Stack.word_put_ne hhas (by rw [Routine.place]; omega), h.caller]
  locals y hy hplace := by
    rw [Store.set]
    split
    · next heq =>
      rw [heq, Stack.word_put_self hhas]
    · next hne =>
      rw [Stack.word_put_ne hhas (Routine.place_ne hy hne)]
      exact h.locals y hy (has_put.1 hplace)
  values := h.values.put hhas (.inl (by have := Routine.place_lt hx; omega)) v

section Access

variable {j : Nat}

theorem load_has (h : Memory r store values stack) (hj : stack.Has j) :
    stack.load (Stack.below r.size j) = .ok (stack.word j) := by
  have hmod := r.size_mod
  have hlt := r.size_lt
  rw [← h.size] at hmod hlt ⊢
  exact Stack.load_below (by omega) hlt hj

theorem store_has (h : Memory r store values stack) (hj : stack.Has j) (v : Word) :
    stack.store (Stack.below r.size j) v = .ok (stack.put j v) := by
  have hmod := r.size_mod
  have hlt := r.size_lt
  rw [← h.size] at hmod hlt ⊢
  exact Stack.store_below (by omega) hlt hj v

theorem load_outside (h : Memory r store values stack) (hj : 8 * j < 2 ^ 63)
    (hroom : r.size < 8 * j) :
    stack.load (Stack.below r.size j) = .error (.fault (.outsideStack (Stack.below r.size j))) := by
  have hmod := r.size_mod
  have hlt := r.size_lt
  rw [← h.size] at hmod hlt hroom ⊢
  exact Stack.load_below_outside (by omega) hlt hj hroom

theorem store_outside (h : Memory r store values stack) (hj : 8 * j < 2 ^ 63)
    (hroom : r.size < 8 * j) (v : Word) :
    stack.store (Stack.below r.size j) v =
      .error (.fault (.outsideStack (Stack.below r.size j))) := by
  have hmod := r.size_mod
  have hlt := r.size_lt
  rw [← h.size] at hmod hlt hroom ⊢
  exact Stack.store_below_outside (by omega) hlt hj hroom v

end Access

end Memory

/-! ## Configurations -/

/-- What the code may know of the machine between two instructions. -/
structure Config where
  rax : Word
  rdi : Word
  rdx : Word
  flags : Option (Word × Word)
  store : Store
  /-- The values on the stack, the last one first. -/
  values : List Word

structure Matches (r : Routine) (c : Config) (s : State) : Prop where
  rax : s.registers.rax = c.rax
  rdi : s.registers.rdi = c.rdi
  rdx : s.registers.rdx = c.rdx
  flags : s.flags = c.flags
  rbx : s.registers.rbx = 0
  rcx : s.registers.rcx = 0
  rsi : s.registers.rsi = 0
  rbp : s.registers.rbp = Stack.below r.size 2
  rsp : s.registers.rsp = Stack.below r.size (r.topmost c.values.length)
  memory : Memory r c.store c.values s.stack

theorem Matches.counted {r : Routine} {c : Config} {s : State} (h : Matches r c s) :
    Matches r c s.counted :=
  ⟨h.rax, h.rdi, h.rdx, h.flags, h.rbx, h.rcx, h.rsi, h.rbp, h.rsp, h.memory⟩

/-! ## What is demanded of every run -/

namespace Routine

variable (r : Routine)

/-- The frame keeps its words, except for that of the local that is assigned. -/
def Kept (assigns : Option Text) (stack stack' : Stack) : Prop :=
  ∀ j < r.words, stack'.load (Stack.below r.size (j + 3)) = stack.load (Stack.below r.size (j + 3)) ∨
    ∃ x, assigns = some x ∧ r.names.idxOf x = j

theorem kept_refl (assigns : Option Text) (stack : Stack) : r.Kept assigns stack stack :=
  fun _ _ => .inl rfl

/-- The stack is too small for the deepest value. -/
def Cramped : Prop := r.size < 16 + 8 * (r.words + r.deepest)

/-- The word that a `push` writes is not one of the frame. -/
def Clear (s : State) : Prop :=
  (s.registers.rsp - 8).toInt + 8 ≤ s.registers.rbp.toInt - (8 * r.words : Nat) ∨
    s.registers.rbp.toInt ≤ (s.registers.rsp - 8).toInt

/-- Up to an epilogue the stack pointer is where the generator's count has it. -/
structure Here (s : State) : Prop where
  pointers : ∀ site, r.site? s.pc = some site → Outside site.line →
    s.registers.rbp = Stack.below r.size 2 ∧
      s.registers.rsp = Stack.below r.size (r.topmost site.depth)
  clear : ∀ p, r.image.fetch? s.pc = some p → p.instruction.op = .push → r.Clear s

/-- The local that the instruction with an index assigns. -/
def assigned? (pc : Int) : Option Text := (r.site? pc).bind Site.assigns

/-- The frame changes by assignments only.  A run ends with an accepted result, and all
registers but `rax`, `rdi` and `rdx` as they were, or because the stack is too small. -/
def demand (accepts : Except Stop Word → Prop) : Demand where
  here := r.Here
  move s s' := r.Kept (r.assigned? s.pc) s.stack s'.stack
  fault
    | .outsideStack _ => r.Cramped
    | .divisionByZero => accepts (.error .divisionByZero)
    | .divisionOverflow => accepts (.error .divisionOverflow)
    | _ => False
  halt s := accepts (.ok s.registers.rax) ∧ s.registers.rsp = Stack.below r.size 0 ∧
    s.registers.rbp = 0 ∧ s.registers.rbx = 0 ∧ s.registers.rcx = 0 ∧ s.registers.rsi = 0

end Routine

/-- Another word was written. -/
theorem Memory.load_put_ne {r : Routine} {store store' : Store} {values values' : List Word}
    {stack : Stack} {j k : Nat} {v : Word} (h : Memory r store values stack)
    (h' : Memory r store' values' (stack.put k v)) (hk : stack.Has k) (hj : 0 < j)
    (hlt : 8 * j < 2 ^ 63) (hne : j ≠ k) :
    (stack.put k v).load (Stack.below r.size j) = stack.load (Stack.below r.size j) := by
  by_cases hroom : 8 * j ≤ r.size
  · have hhas : stack.Has j := h.has_iff.2 ⟨hj, hroom⟩
    rw [h.load_has hhas, h'.load_has (has_put.2 hhas), Stack.word_put_ne hk hne]
  · rw [h.load_outside hlt (by omega), h'.load_outside hlt (by omega)]

/-! ## Code in the routine -/

namespace Routine

variable (r : Routine)

/-- The instruction with an index, and what the generator knows of it. -/
structure Stands (pos : Nat) (i : Instruction) (depth : Nat) (assigns : Option Text) : Prop where
  fetch : ∃ p, r.image.fetch? pos = some p ∧ p.instruction = i
  site : ∃ opens, r.site? pos = some ⟨.instruction i, depth, opens, assigns⟩

variable {r} in
theorem Stands.assigned? {pos : Nat} {i : Instruction} {depth : Nat} {assigns : Option Text}
    (h : r.Stands pos i depth assigns) : r.assigned? pos = assigns := by
  obtain ⟨opens, hsite⟩ := h.site
  rw [Routine.assigned?, hsite]
  rfl

/-- The sites stand in the routine from an index on. -/
def At : Nat → List Site → Prop
  | _, [] => True
  | pos, ⟨.instruction i, depth, _, assigns⟩ :: rest =>
    r.Stands pos i depth assigns ∧ At (pos + 1) rest
  | pos, ⟨.label name, _, _, _⟩ :: rest => r.image.index? name = some (pos : Int) ∧ At pos rest
  | pos, _ :: rest => At pos rest

end Routine

/-- The instructions among sites. -/
def width (sites : List Site) : Nat := sites.countP Site.isInstruction

theorem width_append (xs ys : List Site) : width (xs ++ ys) = width xs + width ys :=
  List.countP_append

theorem width_cons (s : Site) (xs : List Site) :
    width (s :: xs) = (if s.isInstruction then 1 else 0) + width xs := by
  rw [width, List.countP_cons, Nat.add_comm]
  rfl

theorem width_opening (sites : List Site) : width (opening sites) = width sites := by
  induction sites with
  | nil => rfl
  | cons s rest ih =>
    rw [opening]
    split
    · rw [width_cons, width_cons]
      rfl
    · rw [width_cons, width_cons, ih]

namespace Routine

variable {r : Routine} {pos : Nat}

theorem at_append {xs ys : List Site} :
    r.At pos (xs ++ ys) ↔ r.At pos xs ∧ r.At (pos + width xs) ys := by
  induction xs generalizing pos with
  | nil => simp [At, width]
  | cons s xs ih =>
    obtain ⟨line, depth, opens, assigns⟩ := s
    rw [width_cons]
    cases line with
    | instruction i => simp [At, ih, and_assoc, Site.isInstruction, ← Nat.add_assoc]
    | label name => simp [At, ih, and_assoc, Site.isInstruction]
    | intelNotation | global name | comment remark => simp [At, ih, Site.isInstruction]

theorem at_opening {sites : List Site} : r.At pos (opening sites) ↔ r.At pos sites := by
  induction sites generalizing pos with
  | nil => exact Iff.rfl
  | cons s rest ih =>
    obtain ⟨line, depth, opens, assigns⟩ := s
    cases line with
    | instruction i => exact Iff.rfl
    | label name => exact and_congr_right fun _ => ih
    | intelNotation | global name | comment remark => exact ih

end Routine

end Simulation
end WordC
