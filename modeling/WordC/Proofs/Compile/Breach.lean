import WordC.Proofs.Codegen.Listing
import WordC.Proofs.Codegen.Outcome
import WordC.Proofs.Printing
/-!
Internal errors of the compiler.

The generator has five ways to find fault with a tree.  Two of them cannot happen: code
never takes a word off an empty stack, and no statement leaves more than one.  The other
three happen exactly on ill-formed trees, as long as the frame has no limit.  No source
text spells such a tree, so compiling a text never ends in an internal error.
-/

namespace WordC
namespace Node

theorem isExpression_of_isValue {e : Node} (h : e.isValue = true) : e.isExpression = true := by
  cases e with
  | num _ | ident _ | binary _ _ _ => rfl
  | ret _ | cond _ _ _ | loop _ _ | iter _ _ _ _ | block _ => cases h

theorem isWellFormed_of_mem {n : Node} {ns : List Node} (h : areWellFormed ns = true)
    (hn : n ∈ ns) : n.isWellFormed = true := by
  induction ns with
  | nil => cases hn
  | cons m ns ih =>
    rw [areWellFormed, Bool.and_eq_true] at h
    rcases List.mem_cons.1 hn with rfl | hn
    · exact h.1
    · exact ih h.2 hn

/-- The used values of a statement with a spelling have a spelling. -/
theorem isValue_of_operands {n e : Node} (h : n.isWellFormed = true) (he : e ∈ n.operands) :
    e.isValue = true := by
  cases n with
  | num _ | ident _ | block _ => cases he
  | binary op left right =>
    obtain ⟨-, -, hleft, hright⟩ := isValue_binary h
    rcases List.mem_cons.1 he with rfl | he
    · exact hleft
    · rw [List.mem_singleton.1 he]
      exact hright
  | ret value =>
    rw [List.mem_singleton.1 he]
    exact h
  | cond test yes no =>
    rw [List.mem_singleton.1 he]
    exact (isWellFormed_cond h).1
  | loop test body =>
    rw [isWellFormed, Bool.and_eq_true] at h
    rw [List.mem_singleton.1 he]
    exact h.1
  | iter init test step body =>
    simp only [isWellFormed, Bool.and_eq_true] at h
    have htest := h.1.1.2
    rw [Option.mem_toList.1 he] at htest
    exact htest

theorem isWellFormed_of_children {n m : Node} (h : n.isWellFormed = true) (hm : m ∈ n.children) :
    m.isWellFormed = true := by
  cases n with
  | num _ | ident _ => cases hm
  | binary _ _ _ | ret _ => exact isWellFormed_of_isValue (isValue_of_operands h hm)
  | cond test yes no =>
    obtain ⟨htest, hyes, hno⟩ := isWellFormed_cond h
    simp only [children, List.mem_cons, Option.mem_toList] at hm
    rcases hm with rfl | rfl | hm
    · exact isWellFormed_of_isValue htest
    · exact hyes
    · exact hno m hm
  | loop test body =>
    rw [isWellFormed, Bool.and_eq_true] at h
    rcases List.mem_cons.1 hm with rfl | hm
    · exact isWellFormed_of_isValue h.1
    · rw [List.mem_singleton.1 hm]
      exact h.2
  | iter init test step body =>
    simp only [isWellFormed, Bool.and_eq_true] at h
    obtain ⟨⟨⟨hinit, htest⟩, hstep⟩, hbody⟩ := h
    simp only [children, List.mem_append, List.mem_cons, Option.mem_toList] at hm
    rcases hm with (hm | hm) | rfl | hm
    · exact isWellFormed_of_isClause hinit m hm
    · exact isWellFormed_of_isClause htest m hm
    · exact hbody
    · exact isWellFormed_of_isClause hstep m hm
  | block body => exact isWellFormed_of_mem h hm

theorem not_offends_of_isWellFormed {n : Node} (h : n.isWellFormed = true) : ¬ n.Offends := by
  intro hoffends
  cases hoffends with
  | target hleft =>
    have hident := (isValue_binary h).2.1 rfl
    exact absurd (hident.symm.trans hleft) (by decide)
  | operator hop => exact hop (isValue_binary h).1
  | value he hstatement =>
    have hexpression := isExpression_of_isValue (isValue_of_operands h he)
    exact absurd (hexpression.symm.trans hstatement) (by decide)

theorem not_illFormed_of_isWellFormed {n : Node} (h : n.isWellFormed = true) : ¬ n.IllFormed := by
  intro hill
  induction hill with
  | self hoffends => exact not_offends_of_isWellFormed h hoffends
  | part hm _ ih => exact ih (isWellFormed_of_children h hm)

end Node

/-- No source text spells an ill-formed tree. -/
theorem not_illFormed_of_parse {source : Text} {p : Program} (h : Program.parse source = .ok p) :
    ¬ p.IllFormed := by
  rintro ⟨n, hn, hill⟩
  have hwell : Node.areWellFormed p = true := wellFormed_of_parse h
  exact Node.not_illFormed_of_isWellFormed (Node.isWellFormed_of_mem hwell hn) hill

namespace Codegen

open Asm

variable {settings : Settings} {p : Program}

theorem run_refused {f : Failure} {s : State} (h : run settings p = .error f s) :
    Refused settings.frameSlots p.IllFormed f :=
  (settles_function settings p (.initial settings.frameSlots)).of_error h

theorem run_settled {lines : Code} {s : State} (h : run settings p = .ok lines s) :
    ¬ p.IllFormed ∧ s.depth = 0 := by
  obtain ⟨hwell, hleaves⟩ :=
    (settles_function settings p (.initial settings.frameSlots)).of_ok h
  exact ⟨hwell, hleaves.depth⟩

/-- Without a limit of the frame, only a node that offends is refused. -/
theorem Refused.illFormed {ill : Prop} {f : Failure} (h : Refused 0 ill f) :
    ill ∧ ∃ b, f = .breach b := by
  cases h with
  | exhausted name hpos => exact absurd hpos (by decide)
  | value e values hill => exact ⟨hill, _, rfl⟩
  | target left hill => exact ⟨hill, _, rfl⟩
  | operator op hill => exact ⟨hill, _, rfl⟩

/-- A generator with settings that have no problem and a frame without a limit refuses the
ill-formed programs, and generates the others. -/
theorem generate_settled (hproblem : settings.withDefaults.problem? = none)
    (hslots : settings.frameSlots = 0) :
    (p.IllFormed ∧ ∃ b, p.generate settings = .error (.failed (.breach b))) ∨
      ¬ p.IllFormed ∧ ∃ lines s, run settings.withDefaults p = .ok lines s ∧ s.depth = 0 ∧
        p.generate settings = .ok (render lines) := by
  rcases generate_cases p settings with
    ⟨problem, hsome, -⟩ | ⟨-, ⟨lines, s, hrun, hok⟩ | ⟨f, s, hrun, herror⟩⟩
  · cases hproblem.symm.trans hsome
  · obtain ⟨hwell, hdepth⟩ := run_settled hrun
    exact .inr ⟨hwell, lines, s, hrun, hdepth, hok⟩
  · have hslots' : settings.withDefaults.frameSlots = 0 := hslots
    have hrefused := run_refused hrun
    rw [hslots'] at hrefused
    obtain ⟨hill, b, rfl⟩ := hrefused.illFormed
    exact .inl ⟨hill, b, herror⟩

/-- A breach of a program that is not ill formed cannot happen, whatever the frame. -/
theorem Refused.exhausted_of_not {capacity : Word} {ill : Prop} {f : Failure}
    (h : Refused capacity ill f) (hwell : ¬ ill) : ∃ name, f = .exhausted name capacity := by
  cases h with
  | exhausted name _ => exact ⟨name, rfl⟩
  | value _ _ hill | target _ hill | operator _ hill => exact absurd hill hwell

end Codegen

open Codegen Asm

/-- Internal errors are for ill-formed trees: with a frame without a limit, exactly those are
refused by one, and all others are generated with no word left on the stack.  No code takes
a word off an empty stack, and no statement leaves more than one.  A source never spells an
ill-formed tree, so that compiling it ends with code, a rejection of the source, a problem of
the settings or a full frame. -/
theorem breach_iff_illFormed :
    (∀ (p : Program) (settings : Settings), settings.withDefaults.problem? = none →
      settings.frameSlots = 0 →
        ((∃ b, p.generate settings = .error (.failed (.breach b))) ↔ p.IllFormed) ∧
        (¬ p.IllFormed → ∃ lines s, run settings.withDefaults p = .ok lines s ∧ s.depth = 0 ∧
          p.generate settings = .ok (render lines))) ∧
    (∀ (p : Program) (settings : Settings) (b : Breach) (s : State),
      run settings p = .error (.breach b) s →
        (∀ stmt values, b ≠ .leftOver stmt values) ∧ ∀ r, b ≠ .emptyStack r) ∧
    (∀ (source : Text) (p : Program), Program.parse source = .ok p → ¬ p.IllFormed) ∧
    ∀ (source : Text) (settings : Settings),
      (∃ code, compile source settings = .ok code) ∨
      (∃ r, compile source settings = .error (.rejected r)) ∨
      (∃ problem, compile source settings = .error (.settings problem)) ∨
      ∃ name, compile source settings =
        .error (.failed (.exhausted name settings.frameSlots)) := by
  refine ⟨fun p settings hproblem hslots => ?_, fun p settings b s hrun => ?_,
    fun _ _ => not_illFormed_of_parse, fun source settings => ?_⟩
  · rcases generate_settled (p := p) hproblem hslots with
      ⟨hill, b, hb⟩ | ⟨hwell, lines, s, hrun, hdepth, hok⟩
    · exact ⟨⟨fun _ => hill, fun _ => ⟨b, hb⟩⟩, fun hwell => absurd hill hwell⟩
    · refine ⟨⟨?_, fun hill => absurd hill hwell⟩, fun _ => ⟨lines, s, hrun, hdepth, hok⟩⟩
      rintro ⟨b, hb⟩
      cases hb.symm.trans hok
  · cases run_refused hrun with
    | value e values _ => exact ⟨nofun, nofun⟩
    | target left _ => exact ⟨nofun, nofun⟩
    | operator op _ => exact ⟨nofun, nofun⟩
  · cases hparse : Program.parse source with
    | error r => exact .inr (.inl ⟨r, compile_of_rejection hparse settings⟩)
    | ok p =>
      rw [compile_of_parse hparse]
      rcases generate_cases p settings with
        ⟨problem, -, hproblem⟩ | ⟨-, ⟨lines, s, -, hok⟩ | ⟨f, s, hrun, herror⟩⟩
      · exact .inr (.inr (.inl ⟨problem, hproblem⟩))
      · exact .inl ⟨_, hok⟩
      · obtain ⟨name, rfl⟩ := (run_refused hrun).exhausted_of_not (not_illFormed_of_parse hparse)
        exact .inr (.inr (.inr ⟨name, herror⟩))

/-- A loop whose first clause is a block, which no source spells. -/
def blockClause : Program := [.iter (some (.block [])) none none (.num 1)]

/-- No line comes from the block. -/
def blockClauseCode : Text :=
  List.flatten
    [utf8 ".intel_syntax noprefix\n.globl main\nmain:\n  push rbp\n  mov rbp, rsp\n",
    utf8 ".Lbegin0:\n  push 1\n  pop rax\n  jmp .Lbegin0\n.Lend0:\n",
    utf8 "  mov rsp, rbp\n  pop rbp\n  ret\n"]

/-- A block as a condition is refused, but as the first clause of a loop it is a statement
like any other. -/
theorem breach_block_condition :
    (∃ b, Program.generate [.iter none (some (.block [])) none (.num 1)] .empty =
      .error (.failed (.breach b))) ∧
    ∃ lines s, run Settings.standard blockClause = .ok lines s ∧ s.depth = 0 ∧
      render lines = blockClauseCode := by
  have hproblem : Settings.empty.withDefaults.problem? = none := by decide
  have hill : Program.IllFormed [.iter none (some (.block [])) none (.num 1)] :=
    ⟨_, List.mem_cons_self, .self (.value (e := .block []) List.mem_cons_self rfl)⟩
  have hblock : ¬ (Node.block []).IllFormed :=
    Node.not_illFormed (Node.not_offends_of_operands nofun nofun) nofun
  have hnum : ¬ (Node.num 1).IllFormed :=
    Node.not_illFormed (Node.not_offends_of_operands nofun nofun) nofun
  have hloop : ¬ (Node.iter (some (.block [])) none none (.num 1)).IllFormed :=
    Node.not_illFormed (Node.not_offends_of_operands nofun nofun)
      (List.forall_mem_cons.2 ⟨hblock, List.forall_mem_singleton.2 hnum⟩)
  have hwell : ¬ blockClause.IllFormed := by
    rintro ⟨n, hn, hill⟩
    exact hloop (List.mem_singleton.1 hn ▸ hill)
  refine ⟨(breach_iff_illFormed.1 _ _ hproblem rfl).1.2 hill, ?_⟩
  obtain ⟨lines, s, hrun, hdepth, hcode⟩ := (breach_iff_illFormed.1 _ _ hproblem rfl).2 hwell
  have hgenerate : blockClause.generate .empty = .ok blockClauseCode := by cbv
  exact ⟨lines, s, hrun, hdepth, Except.ok.inj (hcode.symm.trans hgenerate)⟩

end WordC
