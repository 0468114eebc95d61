import WordC.Codegen
import WordC.Proofs.Printing.WellFormed
import WordC.Proofs.Sequence
/-!
How generation ends.

The generator takes more trees than the grammar spells: it asks only that values stand
where values are used, that assignments have a name on their left, and that operators
are known.  A node that breaks one of these rules offends, and a tree with an offending
node is ill formed.  `Ends` follows a generator forwards through success and failure,
and says of every node at once how many values its code leaves, that only ill-formed
trees are refused, and that no such tree gets through.
-/

namespace WordC
namespace Node

/-- The parts of a node whose values its code uses. -/
def operands : Node → List Node
  | binary _ left right => [left, right]
  | ret value => [value]
  | cond test _ _ => [test]
  | loop test _ => [test]
  | iter _ test _ _ => test.toList
  | num _ | ident _ | block _ => []

/-- The parts of a node. -/
def children : Node → List Node
  | num _ | ident _ => []
  | binary _ left right => [left, right]
  | ret value => [value]
  | cond test yes no => test :: yes :: no.toList
  | loop test body => [test, body]
  | iter init test step body => init.toList ++ test.toList ++ body :: step.toList
  | block body => body

/-- The node has no code, whatever stands around it: it assigns to something that is not
a name, its operator is unknown, or it uses the value of a statement. -/
inductive Offends : Node → Prop
  | target {left right : Node} (h : left.isIdent = false) : Offends (binary .assign left right)
  | operator {op : Operator} {left right : Node} (h : op ∉ Operator.all) :
    Offends (binary op left right)
  | value {n e : Node} (he : e ∈ n.operands) (h : e.isExpression = false) : Offends n

/-- Some node of the tree offends. -/
inductive IllFormed : Node → Prop
  | self {n : Node} (h : n.Offends) : IllFormed n
  | part {n m : Node} (hm : m ∈ n.children) (h : m.IllFormed) : IllFormed n

/-- A used value is a part. -/
theorem mem_children_of_operands {n e : Node} (h : e ∈ n.operands) : e ∈ n.children := by
  cases n with
  | num _ | ident _ | block _ => cases h
  | binary _ _ _ | ret _ => exact h
  | cond _ _ _ | loop _ _ =>
    rw [List.mem_singleton.1 h]
    exact List.mem_cons_self
  | iter init test step body => exact List.mem_append_left _ (List.mem_append_right _ h)

theorem not_illFormed {n : Node} (hn : ¬ n.Offends) (hchildren : ∀ m ∈ n.children, ¬ m.IllFormed) :
    ¬ n.IllFormed := by
  intro h
  cases h with
  | self h => exact hn h
  | part hm h => exact hchildren _ hm h

theorem not_illFormed_of_children {n m : Node} (h : ¬ n.IllFormed) (hm : m ∈ n.children) :
    ¬ m.IllFormed :=
  fun hill => h (.part hm hill)

/-- A used value of a tree that is not ill formed is an expression, and not ill formed. -/
theorem value_of_operands {n e : Node} (h : ¬ n.IllFormed) (he : e ∈ n.operands) :
    e.isExpression = true ∧ ¬ e.IllFormed := by
  refine ⟨?_, not_illFormed_of_children h (mem_children_of_operands he)⟩
  cases hexpression : e.isExpression with
  | true => rfl
  | false => exact absurd (.self (.value he hexpression)) h

theorem binary_parts {op : Operator} {left right : Node} (h : ¬ (binary op left right).IllFormed) :
    (left.isExpression = true ∧ ¬ left.IllFormed) ∧ right.isExpression = true ∧ ¬ right.IllFormed :=
  ⟨value_of_operands h List.mem_cons_self,
    value_of_operands h (List.mem_cons_of_mem _ List.mem_cons_self)⟩

theorem cond_parts {test yes : Node} {no : Option Node} (h : ¬ (cond test yes no).IllFormed) :
    (test.isExpression = true ∧ ¬ test.IllFormed) ∧ ¬ yes.IllFormed ∧ ∀ m ∈ no, ¬ m.IllFormed :=
  ⟨value_of_operands h List.mem_cons_self, not_illFormed_of_children h (by simp [children]),
    fun _ hm => not_illFormed_of_children h (by simp [children, Option.mem_def.1 hm])⟩

theorem loop_parts {test body : Node} (h : ¬ (loop test body).IllFormed) :
    (test.isExpression = true ∧ ¬ test.IllFormed) ∧ ¬ body.IllFormed :=
  ⟨value_of_operands h List.mem_cons_self, not_illFormed_of_children h (by simp [children])⟩

theorem iter_parts {init test step : Option Node} {body : Node}
    (h : ¬ (iter init test step body).IllFormed) :
    (∀ m ∈ init, ¬ m.IllFormed) ∧ (∀ e ∈ test, e.isExpression = true ∧ ¬ e.IllFormed) ∧
      ¬ body.IllFormed ∧ ∀ m ∈ step, ¬ m.IllFormed :=
  ⟨fun _ hm => not_illFormed_of_children h (by simp [children, Option.mem_def.1 hm]),
    fun _ he => value_of_operands h (Option.mem_toList.2 he),
    not_illFormed_of_children h (by simp [children]),
    fun _ hm => not_illFormed_of_children h (by simp [children, Option.mem_def.1 hm])⟩

theorem isExpression_of_isIdent {e : Node} (h : e.isIdent = true) : e.isExpression = true := by
  cases e with
  | ident name => rfl
  | _ => cases h

theorem exists_of_isIdent {e : Node} (h : e.isIdent = true) : ∃ name, e = .ident name := by
  cases e with
  | ident name => exact ⟨name, rfl⟩
  | _ => cases h

theorem not_offends_assign {left right : Node} (hleft : left.isIdent = true)
    (hright : right.isExpression = true) : ¬ (binary .assign left right).Offends := by
  intro h
  cases h with
  | target h => exact absurd (hleft.symm.trans h) (by decide)
  | operator h => exact h (by decide)
  | value he h =>
    rcases List.mem_cons.1 he with rfl | he
    · exact absurd ((isExpression_of_isIdent hleft).symm.trans h) (by decide)
    · rw [List.mem_singleton.1 he, hright] at h
      cases h

theorem not_offends_binary {op : Operator} {left right : Node} (hop : op ∈ Operator.all)
    (hassign : op ≠ .assign) (hleft : left.isExpression = true)
    (hright : right.isExpression = true) : ¬ (binary op left right).Offends := by
  intro h
  cases h with
  | target h => exact hassign rfl
  | operator h => exact h hop
  | value he h =>
    rcases List.mem_cons.1 he with rfl | he
    · exact absurd (hleft.symm.trans h) (by decide)
    · rw [List.mem_singleton.1 he, hright] at h
      cases h

/-- A node that is no operation offends by its operands alone. -/
theorem not_offends_of_operands {n : Node} (hn : ∀ op left right, n ≠ binary op left right)
    (hoperands : ∀ e ∈ n.operands, e.isExpression = true) : ¬ n.Offends := by
  intro h
  cases h with
  | target h => exact hn _ _ _ rfl
  | operator h => exact hn _ _ _ rfl
  | value he h => exact absurd ((hoperands _ he).symm.trans h) (by decide)

theorem not_illFormed_num (value : Word) : ¬ (num value).IllFormed :=
  not_illFormed (not_offends_of_operands nofun nofun) nofun

theorem not_illFormed_ident (name : Text) : ¬ (ident name).IllFormed :=
  not_illFormed (not_offends_of_operands nofun nofun) nofun

theorem not_illFormed_cond {test yes : Node} {no : Option Node}
    (htest : ¬ test.IllFormed ∧ test.isExpression = true) (hyes : ¬ yes.IllFormed)
    (hno : ¬ ∃ m ∈ no, m.IllFormed) : ¬ (cond test yes no).IllFormed := by
  refine not_illFormed (not_offends_of_operands nofun (List.forall_mem_singleton.2 htest.2)) ?_
  refine List.forall_mem_cons.2 ⟨htest.1, List.forall_mem_cons.2 ⟨hyes, fun m hm h => ?_⟩⟩
  exact hno ⟨m, Option.mem_toList.1 hm, h⟩

theorem not_illFormed_loop {test body : Node} (htest : ¬ test.IllFormed ∧ test.isExpression = true)
    (hbody : ¬ body.IllFormed) : ¬ (loop test body).IllFormed := by
  refine not_illFormed (not_offends_of_operands nofun (List.forall_mem_singleton.2 htest.2)) ?_
  exact List.forall_mem_cons.2 ⟨htest.1, List.forall_mem_singleton.2 hbody⟩

theorem not_illFormed_iter {init test step : Option Node} {body : Node}
    (hinit : ¬ ∃ m ∈ init, m.IllFormed) (htest : ∀ e ∈ test, ¬ e.IllFormed ∧ e.isExpression = true)
    (hbody : ¬ body.IllFormed) (hstep : ¬ ∃ m ∈ step, m.IllFormed) :
    ¬ (iter init test step body).IllFormed := by
  refine not_illFormed (not_offends_of_operands nofun ?_) ?_
  · exact fun e he => (htest e (Option.mem_toList.1 he)).2
  · simp only [children, List.forall_mem_append, List.forall_mem_cons, Option.mem_toList]
    exact ⟨⟨fun m hm h => hinit ⟨m, hm, h⟩, fun e he => (htest e he).1⟩, hbody,
      fun m hm h => hstep ⟨m, hm, h⟩⟩

/-- The words that the code of a node leaves on the stack. -/
def values (n : Node) : Nat := if n.isExpression then 1 else 0

theorem values_of_expression {n : Node} (h : n.isExpression = true) : n.values = 1 := by
  rw [values, if_pos h]

theorem values_of_statement {n : Node} (h : n.isExpression = false) : n.values = 0 := by
  rw [values, h]
  rfl

end Node

/-- Some node of the program offends. -/
def Program.IllFormed (p : Program) : Prop := ∃ n ∈ p, n.IllFormed

namespace Codegen

open Asm

/-! ## Runs of a generator -/

/-- Started in `s`, the generator succeeds with `ok` or fails with `error`. -/
def Ends {α : Type} (gen : Gen α) (s : State) (ok : α → State → Prop) (error : Failure → Prop) :
    Prop :=
  match gen s with
  | .ok a s' => ok a s'
  | .error f _ => error f

namespace Ends

variable {α β : Type} {s : State} {error : Failure → Prop}

theorem bind {x : Gen α} {f : α → Gen β} {mid : α → State → Prop} {ok : β → State → Prop}
    (hx : Ends x s mid error) (hf : ∀ a s', mid a s' → Ends (f a) s' ok error) :
    Ends (x >>= f) s ok error := by
  rw [Ends] at hx ⊢
  cases hxs : x s with
  | ok a s' =>
    rw [hxs] at hx
    rw [bind_of_ok hxs]
    exact hf a s' hx
  | error e s' =>
    rw [hxs] at hx
    rw [bind_of_error hxs]
    exact hx

theorem mono {gen : Gen α} {ok ok' : α → State → Prop} {error' : Failure → Prop}
    (h : Ends gen s ok error) (hok : ∀ a s', ok a s' → ok' a s')
    (herror : ∀ f, error f → error' f) : Ends gen s ok' error' := by
  rw [Ends] at h ⊢
  cases hgen : gen s with
  | ok a s' =>
    rw [hgen] at h
    exact hok a s' h
  | error f s' =>
    rw [hgen] at h
    exact herror f h

/-- A generator may look at its state. -/
theorem get {f : State → Gen β} {ok : β → State → Prop} (h : Ends (f s) s ok error) :
    Ends (MonadState.get >>= f) s ok error :=
  h

theorem of_ok {gen : Gen α} {ok : α → State → Prop} {a : α} {s' : State}
    (h : Ends gen s ok error) (hgen : gen s = .ok a s') : ok a s' := by
  rw [Ends, hgen] at h
  exact h

theorem of_error {gen : Gen α} {ok : α → State → Prop} {f : Failure} {s' : State}
    (h : Ends gen s ok error) (hgen : gen s = .error f s') : error f := by
  rw [Ends, hgen] at h
  exact h

end Ends

/-- Why a tree is refused: the frame is full, or a node offends.  The stack is never found
empty, and a statement never leaves more than one value. -/
inductive Refused (capacity : Word) (ill : Prop) : Failure → Prop
  | exhausted (name : Text) (h : 0 < capacity) : Refused capacity ill (.exhausted name capacity)
  | value (e : Node) (values : Int) (h : ill) : Refused capacity ill (.breach (.notAValue e values))
  | target (left : Node) (h : ill) : Refused capacity ill (.breach (.notATarget left))
  | operator (op : Operator) (h : ill) : Refused capacity ill (.breach (.unknownOperator op))

theorem Refused.mono {capacity : Word} {ill ill' : Prop} {f : Failure}
    (h : Refused capacity ill f) (hill : ill → ill') : Refused capacity ill' f := by
  cases h with
  | exhausted name h => exact .exhausted name h
  | value e values h => exact .value e values (hill h)
  | target left h => exact .target left (hill h)
  | operator op h => exact .operator op (hill h)

/-- From `s` to `s'` the generator has counted `values` words more, under the same limit of
the frame. -/
structure Leaves (s : State) (values : Nat) (s' : State) : Prop where
  depth : s'.depth = s.depth + values
  capacity : s'.frame.capacity = s.frame.capacity

namespace Leaves

theorem refl (s : State) : Leaves s 0 s := ⟨rfl, rfl⟩

theorem trans {s s₁ s' : State} {m n : Nat} (h : Leaves s m s₁) (h' : Leaves s₁ n s') :
    Leaves s (m + n) s' :=
  ⟨by rw [h'.depth, h.depth, Nat.add_assoc], h'.capacity.trans h.capacity⟩

end Leaves

/-- The generator refuses what is ill formed and nothing else, a full frame apart. -/
def Settles (gen : Gen Code) (ill : Prop) (values : Nat) : Prop :=
  ∀ s, Ends gen s (fun _ s' => ¬ ill ∧ Leaves s values s') (Refused s.frame.capacity ill)

/-! ## The steps of the generator

Each step is described from the state `s₀` in which the code of the node began. -/

section Steps

variable {s₀ s : State} {n : Nat} {error : Failure → Prop} {ill : Prop}

theorem ends_push (operand : Operand) (h : Leaves s₀ n s) :
    Ends (push operand) s (fun _ s' => Leaves s₀ (n + 1) s') error :=
  h.trans (n := 1) ⟨rfl, rfl⟩

theorem ends_pop (r : Register) (h : Leaves s₀ (n + 1) s) :
    Ends (pop r) s (fun _ s' => Leaves s₀ n s') error := by
  have hdepth := h.depth
  refine .get ?_
  rw [if_neg (by omega)]
  refine ⟨?_, h.capacity⟩
  change s.depth - 1 = s₀.depth + n
  omega

theorem ends_nextBranch (stem : Text) (h : Leaves s₀ n s) :
    Ends (nextBranch stem) s (fun _ s' => Leaves s₀ n s') error :=
  h.trans (n := 0) ⟨rfl, rfl⟩

theorem lookup?_eq_none {f : Frame} {name : Text} (h : f.lookup? name = none) : 0 < f.capacity := by
  unfold Frame.lookup? at h
  split at h
  · cases h
  · split at h
    · next hfull =>
      rw [Frame.isFull, Bool.and_eq_true, decide_eq_true_eq] at hfull
      exact hfull.1
    · cases h

theorem capacity_lookup? {f f' : Frame} {name : Text} {slot : Nat}
    (h : f.lookup? name = some (slot, f')) : f'.capacity = f.capacity := by
  unfold Frame.lookup? at h
  split at h
  · cases h
    rfl
  · split at h
    · cases h
    · cases h
      rfl

theorem ends_slot (name : Text) (h : Leaves s₀ n s) :
    Ends (slot name) s (fun _ s' => Leaves s₀ n s') (Refused s₀.frame.capacity ill) := by
  refine .get ?_
  dsimp only
  cases hlookup : s.frame.lookup? name with
  | none =>
    have hfull := lookup?_eq_none hlookup
    rw [← h.capacity]
    exact .exhausted name hfull
  | some found =>
    dsimp only
    split
    · exact ⟨h.depth, (capacity_lookup? hlookup).trans h.capacity⟩
    · exact h

theorem ends_address (name : Text) (h : Leaves s₀ n s) :
    Ends (address name) s (fun _ s' => Leaves s₀ n s') (Refused s₀.frame.capacity ill) :=
  (ends_slot name h).bind fun _ _ h => h

theorem Settles.ends {gen : Gen Code} {part : Prop} {values : Nat} (hgen : Settles gen part values)
    (h : Leaves s₀ n s) (hpart : part → ill) :
    Ends gen s (fun _ s' => ¬ part ∧ Leaves s₀ (n + values) s')
      (Refused s₀.frame.capacity ill) := by
  refine (hgen s).mono (fun _ s' h' => ⟨h'.1, h.trans h'.2⟩) fun f hf => ?_
  rw [← h.capacity]
  exact hf.mono hpart

/-- A used value leaves one word, or else it is no expression. -/
theorem ends_asValue {m e : Node} {gen : Gen Code} (he : e ∈ m.operands)
    (hgen : Settles gen e.IllFormed e.values) (h : Leaves s₀ n s) :
    Ends (asValue e gen) s
      (fun _ s' => (¬ e.IllFormed ∧ e.isExpression = true) ∧ Leaves s₀ (n + 1) s')
      (Refused s₀.frame.capacity m.IllFormed) := by
  have hpart : e.IllFormed → m.IllFormed := .part (Node.mem_children_of_operands he)
  refine .get (.bind (hgen.ends h hpart) fun code s₁ h₁ => ?_)
  obtain ⟨hwell, hleaves⟩ := h₁
  refine .get ?_
  dsimp only
  have hbefore := h.depth
  have hafter := hleaves.depth
  cases hexpression : e.isExpression with
  | false =>
    rw [e.values_of_statement hexpression] at hafter
    rw [if_pos (by omega)]
    exact .value e _ (.self (.value he hexpression))
  | true =>
    rw [e.values_of_expression hexpression] at hafter hleaves
    rw [if_neg (by omega)]
    exact ⟨⟨hwell, rfl⟩, hleaves⟩

/-- A statement leaves no word: its value, if it has one, is taken off. -/
theorem settles_asStatement {m : Node} {gen : Gen Code} (hgen : Settles gen m.IllFormed m.values) :
    Settles (asStatement m gen) m.IllFormed 0 := by
  intro s
  refine .get (.bind (hgen s) fun code s₁ h => ?_)
  obtain ⟨hwell, hleaves⟩ := h
  refine .get ?_
  dsimp only
  have hafter := hleaves.depth
  cases hm : m.isExpression with
  | false =>
    rw [m.values_of_statement hm] at hafter hleaves
    rw [if_pos (by omega)]
    exact ⟨hwell, hleaves⟩
  | true =>
    rw [m.values_of_expression hm] at hafter hleaves
    rw [if_neg (by omega), if_pos hafter]
    exact (ends_pop .rax hleaves).bind fun _ _ h => ⟨hwell, h⟩

theorem ends_branchIfZero {m e : Node} {gen : Gen Code} (label : Text) (he : e ∈ m.operands)
    (hgen : Settles gen e.IllFormed e.values) (h : Leaves s₀ n s) :
    Ends (branchIfZero e gen label) s
      (fun _ s' => (¬ e.IllFormed ∧ e.isExpression = true) ∧ Leaves s₀ n s')
      (Refused s₀.frame.capacity m.IllFormed) := by
  refine (ends_asValue he hgen h).bind fun code s₁ h₁ => ?_
  exact (ends_pop .rax h₁.2).bind fun _ _ h => ⟨h₁.1, h⟩

end Steps

/-! ## Nodes -/

theorem node_binary {operator : Operator} (h : operator ≠ .assign) (stem : Text)
    (left right : Node) :
    node stem (.binary operator left right) = (do
      let left ← asValue left (node stem left)
      let right ← asValue right (node stem right)
      let right' ← pop .rdi
      let left' ← pop .rax
      match operation? operator with
      | none => throw (.breach (.unknownOperator operator))
      | some code =>
        return left ++ right ++ right' ++ left' ++ code ++ (← push (.register .rax))) := by
  cases operator with
  | assign => exact absurd rfl h
  | _ => rfl

theorem node_assign_of_not_ident (stem : Text) {left : Node} (h : left.isIdent = false)
    (right : Node) :
    node stem (.binary .assign left right) = throw (.breach (.notATarget left)) := by
  cases left with
  | ident name => cases h
  | _ => rfl

theorem operation?_eq_none {operator : Operator} (hassign : operator ≠ .assign)
    (h : operation? operator = none) : operator ∉ Operator.all := by
  cases operator with
  | assign => exact absurd rfl hassign
  | unknown code => simp [Operator.all]
  | _ => cases h

theorem mem_of_operation? {operator : Operator} {code : Code}
    (h : operation? operator = some code) : operator ∈ Operator.all := by
  cases operator with
  | assign | unknown _ => cases h
  | _ => decide

/-- The condition of a `for`, which may be left out. -/
def optionalTest (stem label : Text) : Option Node → Gen Code
  | none => pure []
  | some test => branchIfZero test (node stem test) label

theorem node_iter (stem : Text) (init test step : Option Node) (body : Node) :
    node stem (.iter init test step body) = (do
      let branch ← nextBranch stem
      let init ← clause stem init
      let test ← optionalTest stem branch.finish test
      let body ← asStatement body (node stem body)
      let step ← clause stem step
      return init ++ [.label branch.start] ++ test ++ body ++ step ++
        [op .jmp [.target branch.start], .label branch.finish]) := by
  cases test with
  | none => rfl
  | some test => rfl

mutual

theorem settles_node (stem : Text) (n : Node) : Settles (node stem n) n.IllFormed n.values := by
  intro s
  match n with
  | .num value =>
    rw [node]
    split
    · exact ⟨Node.not_illFormed_num value, rfl, rfl⟩
    · exact ⟨Node.not_illFormed_num value, rfl, rfl⟩
  | .ident name =>
    rw [node]
    refine (ends_address name (.refl s)).bind fun _ s₁ h₁ => ?_
    exact (ends_push _ h₁).bind fun _ s₂ h₂ => ⟨Node.not_illFormed_ident name, h₂⟩
  | .binary operator left right =>
    have hleft : left ∈ (Node.binary operator left right).operands := List.mem_cons_self
    have hright : right ∈ (Node.binary operator left right).operands :=
      List.mem_cons_of_mem _ List.mem_cons_self
    by_cases hassign : operator = .assign
    · subst hassign
      cases htarget : left.isIdent with
      | false =>
        rw [node_assign_of_not_ident stem htarget]
        exact .target left (.self (.target htarget))
      | true =>
        obtain ⟨name, rfl⟩ := Node.exists_of_isIdent htarget
        rw [node]
        refine (ends_address name (.refl s)).bind fun _ s₁ h₁ => ?_
        refine (ends_push _ h₁).bind fun _ s₂ h₂ => ?_
        refine (ends_asValue hright (settles_node stem right) h₂).bind fun _ s₃ h₃ => ?_
        refine (ends_pop _ h₃.2).bind fun _ s₄ h₄ => ?_
        refine (ends_pop _ h₄).bind fun _ s₅ h₅ => ?_
        refine (ends_push _ h₅).bind fun _ s₆ h₆ => ⟨?_, h₆⟩
        refine Node.not_illFormed (Node.not_offends_assign rfl h₃.1.2) ?_
        exact List.forall_mem_cons.2
          ⟨Node.not_illFormed_ident name, List.forall_mem_singleton.2 h₃.1.1⟩
    · rw [node_binary hassign]
      refine (ends_asValue hleft (settles_node stem left) (.refl s)).bind fun _ s₁ h₁ => ?_
      refine (ends_asValue hright (settles_node stem right) h₁.2).bind fun _ s₂ h₂ => ?_
      refine (ends_pop _ h₂.2).bind fun _ s₃ h₃ => ?_
      refine (ends_pop _ h₃).bind fun _ s₄ h₄ => ?_
      cases hoperation : operation? operator with
      | none =>
        exact .operator operator (.self (.operator (operation?_eq_none hassign hoperation)))
      | some code =>
        refine (ends_push _ h₄).bind fun _ s₅ h₅ => ⟨?_, h₅⟩
        refine Node.not_illFormed
          (Node.not_offends_binary (mem_of_operation? hoperation) hassign h₁.1.2 h₂.1.2) ?_
        exact List.forall_mem_cons.2 ⟨h₁.1.1, List.forall_mem_singleton.2 h₂.1.1⟩
  | .ret value =>
    have hvalue : value ∈ (Node.ret value).operands := List.mem_cons_self
    rw [node]
    refine (ends_asValue hvalue (settles_node stem value) (.refl s)).bind fun _ s₁ h₁ => ?_
    refine (ends_pop _ h₁.2).bind fun _ s₂ h₂ => ⟨?_, h₂⟩
    refine Node.not_illFormed (Node.not_offends_of_operands nofun ?_) ?_
    · exact List.forall_mem_singleton.2 h₁.1.2
    · exact List.forall_mem_singleton.2 h₁.1.1
  | .cond test yes no =>
    have htest : test ∈ (Node.cond test yes no).operands := List.mem_cons_self
    have hyes : yes ∈ (Node.cond test yes no).children :=
      List.mem_cons_of_mem _ List.mem_cons_self
    have hno : ∀ m ∈ no, m ∈ (Node.cond test yes no).children := fun m hm =>
      List.mem_cons_of_mem _ (List.mem_cons_of_mem _ (Option.mem_toList.2 hm))
    rw [node]
    refine (ends_nextBranch stem (.refl s)).bind fun branch s₁ h₁ => ?_
    refine (ends_branchIfZero _ htest (settles_node stem test) h₁).bind fun _ s₂ h₂ => ?_
    refine ((settles_asStatement (settles_node stem yes)).ends h₂.2 (.part hyes)).bind
      fun _ s₃ h₃ => ?_
    exact ((settles_clause stem no).ends h₃.2 fun ⟨m, hm, h⟩ => .part (hno m hm) h).bind
      fun _ s₄ h₄ => ⟨Node.not_illFormed_cond h₂.1 h₃.1 h₄.1, h₄.2⟩
  | .loop test body =>
    have htest : test ∈ (Node.loop test body).operands := List.mem_cons_self
    have hbody : body ∈ (Node.loop test body).children :=
      List.mem_cons_of_mem _ List.mem_cons_self
    rw [node]
    refine (ends_nextBranch stem (.refl s)).bind fun branch s₁ h₁ => ?_
    refine (ends_branchIfZero _ htest (settles_node stem test) h₁).bind fun _ s₂ h₂ => ?_
    exact ((settles_asStatement (settles_node stem body)).ends h₂.2 (.part hbody)).bind
      fun _ s₃ h₃ => ⟨Node.not_illFormed_loop h₂.1 h₃.1, h₃.2⟩
  | .iter init test step body =>
    have hinit : ∀ m ∈ init, m ∈ (Node.iter init test step body).children := fun m hm =>
      List.mem_append_left _ (List.mem_append_left _ (Option.mem_toList.2 hm))
    have hbody : body ∈ (Node.iter init test step body).children :=
      List.mem_append_right _ List.mem_cons_self
    have hstep : ∀ m ∈ step, m ∈ (Node.iter init test step body).children := fun m hm =>
      List.mem_append_right _ (List.mem_cons_of_mem _ (Option.mem_toList.2 hm))
    rw [node_iter]
    refine (ends_nextBranch stem (.refl s)).bind fun branch s₁ h₁ => ?_
    refine ((settles_clause stem init).ends h₁ fun ⟨m, hm, h⟩ => .part (hinit m hm) h).bind
      fun _ s₂ h₂ => ?_
    have htest : Ends (optionalTest stem branch.finish test) s₂
        (fun _ s₃ => (∀ e ∈ test, ¬ e.IllFormed ∧ e.isExpression = true) ∧ Leaves s 0 s₃)
        (Refused s.frame.capacity (Node.iter init test step body).IllFormed) := by
      cases test with
      | none => exact ⟨nofun, h₂.2⟩
      | some e =>
        have he : e ∈ (Node.iter init (some e) step body).operands := List.mem_cons_self
        refine (ends_branchIfZero _ he (settles_node stem e) h₂.2).mono (fun _ s₃ h => ?_)
          fun _ hf => hf
        exact ⟨fun e' he' => Option.some.inj he' ▸ h.1, h.2⟩
    refine htest.bind fun _ s₃ h₃ => ?_
    refine ((settles_asStatement (settles_node stem body)).ends h₃.2 (.part hbody)).bind
      fun _ s₄ h₄ => ?_
    exact ((settles_clause stem step).ends h₄.2 fun ⟨m, hm, h⟩ => .part (hstep m hm) h).bind
      fun _ s₅ h₅ => ⟨Node.not_illFormed_iter h₂.1 h₃.1 h₄.1 h₅.1, h₅.2⟩
  | .block body =>
    rw [node]
    refine (settles_statements stem body s).mono (fun _ s' h => ⟨?_, h.2⟩) fun f hf =>
      hf.mono fun ⟨m, hm, h⟩ => .part hm h
    refine Node.not_illFormed (Node.not_offends_of_operands nofun nofun) fun m hm hill => ?_
    exact h.1 ⟨m, hm, hill⟩

theorem settles_clause (stem : Text) (o : Option Node) :
    Settles (clause stem o) (∃ n ∈ o, n.IllFormed) 0 := by
  intro s
  match o with
  | none =>
    rw [clause]
    exact ⟨nofun, .refl s⟩
  | some n =>
    rw [clause]
    refine (settles_asStatement (settles_node stem n) s).mono (fun _ s' h => ⟨?_, h.2⟩) fun f hf =>
      hf.mono fun h => ⟨n, rfl, h⟩
    rintro ⟨m, hm, hill⟩
    exact h.1 (Option.some.inj hm ▸ hill)

theorem settles_statements (stem : Text) (ns : List Node) :
    Settles (statements stem ns) (∃ n ∈ ns, n.IllFormed) 0 := by
  intro s
  match ns with
  | [] =>
    rw [statements]
    exact ⟨nofun, .refl s⟩
  | n :: rest =>
    rw [statements]
    refine ((settles_asStatement (settles_node stem n)).ends (.refl s)
      fun h => ⟨n, List.mem_cons_self, h⟩).bind fun _ s₁ h₁ => ?_
    refine ((settles_statements stem rest).ends h₁.2
      fun ⟨m, hm, h⟩ => ⟨m, List.mem_cons_of_mem n hm, h⟩).bind fun _ s₂ h₂ => ⟨?_, h₂.2⟩
    rintro ⟨m, hm, hill⟩
    rcases List.mem_cons.1 hm with rfl | hm
    · exact h₁.1 hill
    · exact h₂.1 ⟨m, hm, hill⟩

end

/-! ## Programs -/

theorem settles_body (settings : Settings) (p : Program) :
    Settles (body settings p) p.IllFormed 0 := by
  induction p with
  | nil => exact fun s => ⟨nofun, .refl s⟩
  | cons n rest ih =>
    intro s
    refine ((settles_asStatement (settles_node settings.labelStem n)).ends (.refl s)
      fun h => ⟨n, List.mem_cons_self, h⟩).bind fun _ s₁ h₁ => ?_
    refine (ih.ends h₁.2 fun ⟨m, hm, h⟩ => ⟨m, List.mem_cons_of_mem n hm, h⟩).bind
      fun _ s₂ h₂ => ⟨?_, h₂.2⟩
    rintro ⟨m, hm, hill⟩
    rcases List.mem_cons.1 hm with rfl | hm
    · exact h₁.1 hill
    · exact h₂.1 ⟨m, hm, hill⟩

/-- A program without an offending node is generated, unless its frame is full, and the
count of words is zero in the end.  One with such a node is refused. -/
theorem settles_function (settings : Settings) (p : Program) :
    Settles (function settings p) p.IllFormed 0 := by
  intro s
  exact (settles_body settings p s).bind fun _ _ h => ⟨h.1, h.2.depth, h.2.capacity⟩

end Codegen
end WordC
