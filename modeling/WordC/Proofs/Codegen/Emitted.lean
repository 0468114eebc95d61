import WordC.Proofs.Codegen.Layout
/-!
The lines that code consists of.

Whatever the tree, its code is made of a few kinds of lines.  Most of them are fixed.
The others load a number, reach for the slot of a name in the tree, belong to a branch
or comment on a statement.  What holds of every kind holds of every line of a body.
-/

namespace WordC
namespace Codegen

open Asm

/-- The lines without a part that depends on the tree. -/
def fixedLines : Code :=
  [op .mov [.register .rax, .register .rbp], op .mov [.register .rax, .memory .rax 0],
    op .mov [.memory .rax 0, .register .rdi], op .push [.register .rax],
    op .push [.register .rdi], op .pop [.register .rax], op .pop [.register .rdi],
    op (.arith .add) [.register .rax, .register .rdi],
    op (.arith .sub) [.register .rax, .register .rdi],
    op (.arith .imul) [.register .rax, .register .rdi], op .cqo [], op .idiv [.register .rdi],
    op .cmp [.register .rax, .register .rdi], op .cmp [.register .rax, .immediate 0],
    op .movzx [.register .rax, .register .al]] ++
    Condition.all.map (fun c => op (.set c) [.register .al]) ++ epilogue

/-- A line that the code of a tree with these names may have. -/
inductive Emitted (slot : Text → Nat) (names : List Text) : Line → Prop
  | fixed {l : Line} (h : l ∈ fixedLines) : Emitted slot names l
  | place {x : Text} (h : x ∈ names) : Emitted slot names
      (op (.arith .sub) [.register .rax, .immediate (Int64.ofNat (Frame.offset (slot x)))])
  | short {value : Word} (h : isShort value = true) :
      Emitted slot names (op .push [.immediate value])
  | long (value : Word) : Emitted slot names (op .mov [.register .rax, .immediate value])
  | jump {m : Mnemonic} (h : m.isJump = true) (label : Text) :
      Emitted slot names (op m [.target label])
  | label (name : Text) : Emitted slot names (.label name)
  | comment (remark : Text) : Emitted slot names (.comment remark)

/-- Sites whose lines may all be there. -/
def Emits (slot : Text → Nat) (names : List Text) (sites : List Site) : Prop :=
  ∀ l ∈ sites.map Site.line, Emitted slot names l

section

variable {slot : Text → Nat} {names : List Text}

namespace Emits

theorem nil : Emits slot names [] := nofun

theorem append {xs ys : List Site} (hxs : Emits slot names xs) (hys : Emits slot names ys) :
    Emits slot names (xs ++ ys) := by
  rw [Emits, List.map_append]
  exact List.forall_mem_append.2 ⟨hxs, hys⟩

theorem opening {sites : List Site} (h : Emits slot names sites) :
    Emits slot names (opening sites) := by
  rw [Emits, map_line_opening]
  exact h

theorem plain {code : Code} (h : ∀ l ∈ code, Emitted slot names l) (depth : Nat) :
    Emits slot names (plain depth code) := by
  rw [Emits, map_line_plain]
  exact h

theorem fixed {code : Code} (h : ∀ l ∈ code, l ∈ fixedLines) (depth : Nat) :
    Emits slot names (Codegen.plain depth code) :=
  plain (fun l hl => .fixed (h l hl)) depth

end Emits

theorem operation_fixed (operator : Operator) :
    ∀ l ∈ (operation? operator).getD [], l ∈ fixedLines := by
  cases operator with
  | unknown text => nofun
  | _ => decide

theorem emitted_slotAddress {x : Text} (hx : x ∈ names) :
    ∀ l ∈ slotAddress (slot x), Emitted slot names l :=
  List.forall_mem_cons.2 ⟨.fixed (by decide), List.forall_mem_singleton.2 (.place hx)⟩

theorem emits_valueSites (depth : Nat) (e : Node) (h : ∀ x ∈ e.idents, x ∈ names) :
    Emits slot names (valueSites slot depth e) := by
  fun_induction valueSites slot depth e with
  | case1 depth value hshort => exact .plain (List.forall_mem_singleton.2 (.short hshort)) depth
  | case2 depth value hlong =>
    refine .plain (List.forall_mem_cons.2 ⟨.long value, ?_⟩) depth
    exact List.forall_mem_singleton.2 (.fixed (by decide))
  | case3 depth name =>
    have hplace : ∀ l ∈ slotAddress (slot name), Emitted slot names l :=
      emitted_slotAddress (h name (List.mem_singleton_self name))
    refine .plain (List.forall_mem_append.2 ⟨hplace, fun l hl => .fixed ?_⟩) depth
    revert l
    decide
  | case4 depth right name ih =>
    have hplace : ∀ l ∈ slotAddress (slot name), Emitted slot names l :=
      emitted_slotAddress (h name List.mem_cons_self)
    have hright := ih fun x hx => h x (List.mem_cons_of_mem name hx)
    have hheld : Emits slot names
        (plain depth (slotAddress (slot name) ++ [op .push [.register .rax]])) :=
      .plain (List.forall_mem_append.2
        ⟨hplace, List.forall_mem_singleton.2 (.fixed (by decide))⟩) depth
    have hstore : Emits slot names
        [⟨op .mov [.memory .rax 0, .register .rdi], depth, false, some name⟩] := by
      refine List.forall_mem_singleton.2 (.fixed ?_)
      show op .mov [.memory .rax 0, .register .rdi] ∈ fixedLines
      decide
    exact ((((hheld.append hright).append (.fixed (by decide) _)).append
      (.fixed (by decide) _)).append hstore).append (.fixed (by decide) depth)
  | case5 => exact .nil
  | case6 depth operator left right hassign ihleft ihright =>
    have hleft := ihleft fun x hx => h x (List.mem_append_left _ hx)
    have hright := ihright fun x hx => h x (List.mem_append_right _ hx)
    have hoperation : ∀ l ∈ (operation? operator).getD [] ++ [op .push [.register .rax]],
        l ∈ fixedLines :=
      List.forall_mem_append.2 ⟨operation_fixed operator, by decide⟩
    exact (((hleft.append hright).append (.fixed (by decide) _)).append
      (.fixed (by decide) _)).append (.fixed hoperation depth)
  | case7 => exact .nil

theorem emits_takenSites {e : Node} (h : ∀ x ∈ e.idents, x ∈ names) :
    Emits slot names (takenSites slot e) :=
  (emits_valueSites 0 e h).append (.fixed (by decide) 1)

theorem emits_testSites (label : Text) {test : Option Node}
    (h : ∀ x ∈ Node.identsOptional test, x ∈ names) :
    Emits slot names (testSites slot label test) := by
  cases test with
  | none => exact .nil
  | some test =>
    refine (emits_takenSites h).append (.plain ?_ 0)
    exact List.forall_mem_cons.2 ⟨.fixed (by decide), List.forall_mem_singleton.2 (.jump rfl label)⟩

theorem emits_condSites (branch : Branch) {test yes no : List Site} (htest : Emits slot names test)
    (hyes : Emits slot names yes) (hno : Emits slot names no) :
    Emits slot names (condSites branch test yes no) := by
  refine (((htest.append hyes).append (.plain ?_ 0)).append hno).append (.plain ?_ 0)
  · exact List.forall_mem_cons.2 ⟨.jump rfl _, List.forall_mem_singleton.2 (.label _)⟩
  · exact List.forall_mem_singleton.2 (.label _)

theorem emits_loopSites (branch : Branch) {test body step : List Site}
    (htest : Emits slot names test) (hbody : Emits slot names body)
    (hstep : Emits slot names step) : Emits slot names (loopSites branch test body step) := by
  have hstart : Emits slot names (plain 0 [.label branch.start]) :=
    .plain (List.forall_mem_singleton.2 (.label _)) 0
  refine (((hstart.append htest).append hbody).append hstep).append (.plain ?_ 0)
  exact List.forall_mem_cons.2 ⟨.jump rfl _, List.forall_mem_singleton.2 (.label _)⟩

variable (stem : Text)

mutual

theorem emits_stmtSites (b : Nat) (n : Node) (h : ∀ x ∈ n.idents, x ∈ names) :
    Emits slot names (stmtSites stem slot b n) := by
  match n with
  | .num value => exact (emits_takenSites h).opening
  | .ident name => exact (emits_takenSites h).opening
  | .binary operator left right => exact (emits_takenSites h).opening
  | .ret value =>
    have hepilogue : ∀ l ∈ epilogue, l ∈ fixedLines := by decide
    have hvalue : ∀ x ∈ value.idents, x ∈ names := h
    exact ((emits_takenSites hvalue).append (.fixed hepilogue 0)).opening
  | .cond test yes no =>
    simp only [Node.idents, List.forall_mem_append] at h
    have htest : ∀ x ∈ Node.identsOptional (some test), x ∈ names := h.1.1
    exact (emits_condSites _ (emits_testSites _ htest) (emits_stmtSites _ yes h.1.2)
      (emits_optionalSites _ no h.2)).opening
  | .loop test body =>
    simp only [Node.idents, List.forall_mem_append] at h
    have htest : ∀ x ∈ Node.identsOptional (some test), x ∈ names := h.1
    exact (emits_loopSites _ (emits_testSites _ htest) (emits_stmtSites _ body h.2) .nil).opening
  | .iter init test step body =>
    simp only [Node.idents, List.forall_mem_append] at h
    exact ((emits_optionalSites _ init h.1.1.1).append (emits_loopSites _
      (emits_testSites _ h.1.1.2) (emits_stmtSites _ body h.1.2)
      (emits_optionalSites _ step h.2))).opening
  | .block body => exact (emits_allSites b body h).opening

theorem emits_optionalSites (b : Nat) (o : Option Node)
    (h : ∀ x ∈ Node.identsOptional o, x ∈ names) :
    Emits slot names (optionalSites stem slot b o) := by
  match o with
  | none => exact .nil
  | some n => exact emits_stmtSites b n h

theorem emits_allSites (b : Nat) (ns : List Node) (h : ∀ x ∈ Node.identsAll ns, x ∈ names) :
    Emits slot names (allSites stem slot b ns) := by
  match ns with
  | [] => exact .nil
  | n :: rest =>
    simp only [Node.identsAll, List.forall_mem_append] at h
    exact (emits_stmtSites b n h.1).append (emits_allSites (b + n.branches) rest h.2)

end

theorem emits_programSites (settings : Settings) (b : Nat) (p : Program)
    (h : ∀ x ∈ Node.identsAll p, x ∈ names) :
    Emits slot names (programSites settings slot b p) := by
  induction p generalizing b with
  | nil => exact .nil
  | cons n rest ih =>
    simp only [Node.identsAll, List.forall_mem_append] at h
    have hannounced : Emits slot names
        (if settings.comments then plain 0 [announcement n] else []) := by
      split
      · exact .plain (List.forall_mem_singleton.2 (.comment _)) 0
      · exact .nil
    exact (hannounced.append (emits_stmtSites settings.labelStem b n h.1)).append (ih _ h.2)

/-- Every line of a body is of one of the kinds. -/
theorem emits_bodySites (settings : Settings) (p : Program)
    (h : ∀ x ∈ Node.identsAll p, x ∈ names) : Emits slot names (bodySites settings slot p) := by
  rw [bodySites]
  split
  · exact .plain (List.forall_mem_singleton.2 (.long 0)) 0
  · exact emits_programSites settings 0 p h

end

end Codegen
end WordC
