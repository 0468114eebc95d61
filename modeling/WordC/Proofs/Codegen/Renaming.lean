import Mathlib
import WordC.Proofs.Codegen.Listing
/-!
The names of a program do not matter.

A name reaches the code through its slot alone, and slots are handed out in the order in
which names are met.  So the generator, run on a renamed program, goes through renamed
states: `Mirrors` relates the two runs, and is put together along the steps of the
generator.  The renaming has to keep the names of the program apart, which is what makes
the two frames find the same slots.
-/

namespace WordC

/-! ## Renaming -/

namespace Node

mutual

/-- The tree with every name `x` replaced by `r x`. -/
def rename (r : Text → Text) : Node → Node
  | num value => .num value
  | ident name => .ident (r name)
  | binary op left right => .binary op (left.rename r) (right.rename r)
  | ret value => .ret (value.rename r)
  | cond test yes no => .cond (test.rename r) (yes.rename r) (renameOptional r no)
  | loop test body => .loop (test.rename r) (body.rename r)
  | iter init test step body =>
    .iter (renameOptional r init) (renameOptional r test) (renameOptional r step) (body.rename r)
  | block body => .block (renameAll r body)

def renameOptional (r : Text → Text) : Option Node → Option Node
  | none => none
  | some n => some (n.rename r)

def renameAll (r : Text → Text) : List Node → List Node
  | [] => []
  | n :: rest => n.rename r :: renameAll r rest

end
end Node

def Program.rename (r : Text → Text) (p : Program) : Program := Node.renameAll r p

namespace Frame

def rename (r : Text → Text) (f : Frame) : Frame := { f with names := f.names.map r }

theorem size_rename (r : Text → Text) (f : Frame) : (f.rename r).size = f.size := by
  simp [size, rename]

theorem isFull_rename (r : Text → Text) (f : Frame) : (f.rename r).isFull = f.isFull := by
  rw [isFull, isFull, rename, List.length_map]

section Apart

variable {r : Text → Text} {names : Set Text} (hr : Set.InjOn r names)

include hr

theorem idxOf?_map {l : List Text} {x : Text} (hl : ∀ y ∈ l, y ∈ names) (hx : x ∈ names) :
    (l.map r).idxOf? (r x) = l.idxOf? x := by
  induction l with
  | nil => rfl
  | cons y l ih =>
    have heq : (r y == r x) = (y == x) := by
      rw [Bool.eq_iff_iff, beq_iff_eq, beq_iff_eq]
      exact hr.eq_iff (hl y List.mem_cons_self) hx
    rw [List.map_cons, List.idxOf?_cons, List.idxOf?_cons, heq,
      ih fun z hz => hl z (List.mem_cons_of_mem y hz)]

/-- A renamed frame gives a renamed name the same slot. -/
theorem lookup?_rename {f : Frame} {x : Text} (hf : ∀ y ∈ f.names, y ∈ names) (hx : x ∈ names) :
    (f.rename r).lookup? (r x) = (f.lookup? x).map fun found => (found.1, found.2.rename r) := by
  rw [lookup?, lookup?, show (f.rename r).names = f.names.map r from rfl, idxOf?_map hr hf hx,
    isFull_rename]
  cases f.names.idxOf? x with
  | some slot => rfl
  | none =>
    cases f.isFull with
    | true => rfl
    | false => simp [rename]

end Apart
end Frame

namespace Codegen

def Event.rename (r : Text → Text) : Event → Event
  | slotAssigned name slot => .slotAssigned (r name) slot
  | branchNumbered n => .branchNumbered n
  | finished names branches => .finished names branches

def Breach.rename (r : Text → Text) : Breach → Breach
  | leftOver stmt values => .leftOver (stmt.rename r) values
  | notAValue e values => .notAValue (e.rename r) values
  | notATarget left => .notATarget (left.rename r)
  | unknownOperator op => .unknownOperator op
  | emptyStack reg => .emptyStack reg

def Failure.rename (r : Text → Text) : Failure → Failure
  | exhausted name capacity => .exhausted (r name) capacity
  | breach b => .breach (b.rename r)

def State.rename (r : Text → Text) (s : State) : State :=
  { s with frame := s.frame.rename r, events := s.events.map (Event.rename r) }

/-! ## Two runs side by side -/

/-- From a state with names among `names`, the first generator does what the second does from
the renamed state, up to the renaming. -/
def Mirrors (r : Text → Text) (names : Set Text) {α : Type} (gen gen' : Gen α) : Prop :=
  ∀ s, (∀ x ∈ s.frame.names, x ∈ names) →
    Ends gen s
      (fun a s' => gen' (s.rename r) = .ok a (s'.rename r) ∧ ∀ x ∈ s'.frame.names, x ∈ names)
      (fun f => ∃ t, gen' (s.rename r) = .error (f.rename r) t)

namespace Mirrors

variable {r : Text → Text} {names : Set Text} {α β : Type}

theorem pure (a : α) : Mirrors r names (pure a) (pure a) := fun _ hs => ⟨rfl, hs⟩

theorem throw (f : Failure) : Mirrors r names (throw f : Gen α) (throw (f.rename r)) :=
  fun _ _ => ⟨_, rfl⟩

theorem bind {x x' : Gen α} {f f' : α → Gen β} (hx : Mirrors r names x x')
    (hf : ∀ a, Mirrors r names (f a) (f' a)) : Mirrors r names (x >>= f) (x' >>= f') := by
  intro s hs
  refine Ends.bind ((hx s hs).mono (fun _ _ h => h) ?_) fun a s₁ h₁ => ?_
  · rintro e ⟨t, ht⟩
    exact ⟨t, bind_of_error ht⟩
  · rw [bind_of_ok h₁.1]
    exact hf a s₁ h₁.2

theorem get {f f' : State → Gen β}
    (h : ∀ s, (∀ x ∈ s.frame.names, x ∈ names) → Mirrors r names (f s) (f' (s.rename r))) :
    Mirrors r names (MonadState.get >>= f) (MonadState.get >>= f') :=
  fun s hs => h s hs s hs

theorem ite {c : Prop} [Decidable c] {x x' y y' : Gen α} (hx : c → Mirrors r names x x')
    (hy : ¬ c → Mirrors r names y y') :
    Mirrors r names (if c then x else y) (if c then x' else y') := by
  by_cases hc : c
  · simpa only [if_pos hc] using hx hc
  · simpa only [if_neg hc] using hy hc

theorem update (g g' : State → State) (hg : ∀ s, g' (s.rename r) = (g s).rename r)
    (hnames : ∀ s, (∀ x ∈ s.frame.names, x ∈ names) → ∀ x ∈ (g s).frame.names, x ∈ names) :
    Mirrors r names (modify g) (modify g') := by
  intro s hs
  refine ⟨?_, hnames s hs⟩
  rw [← hg]
  rfl

/-- The count of words and its greatest value do not depend on the names. -/
theorem count (g : Nat → Nat) (g' : Nat → Nat → Nat) :
    Mirrors r names (modify fun s => { s with depth := g s.depth, peak := g' s.peak s.depth })
      (modify fun s => { s with depth := g s.depth, peak := g' s.peak s.depth }) :=
  update _ _ (fun _ => rfl) fun _ hs => hs

theorem record (e : Event) : Mirrors r names (record e) (record (e.rename r)) :=
  update _ _ (fun _ => rfl) fun _ hs => hs

theorem push (operand : Asm.Operand) : Mirrors r names (push operand) (push operand) :=
  (count (· + 1) fun peak depth => max peak (depth + 1)).bind fun _ => pure _

theorem pop (reg : Asm.Register) : Mirrors r names (pop reg) (pop reg) := by
  have htaken : Mirrors r names
      (do modify fun s => { s with depth := s.depth - 1 }; return [op .pop [.register reg]])
      (do modify fun s => { s with depth := s.depth - 1 }; return [op .pop [.register reg]]) :=
    (count (· - 1) fun peak _ => peak).bind fun _ => pure _
  exact get fun _ _ => ite (fun _ => (throw (.breach (.emptyStack reg))).bind fun _ => htaken)
    fun _ => htaken

theorem nextBranch (stem : Text) : Mirrors r names (nextBranch stem) (nextBranch stem) := by
  refine get fun s _ => ?_
  have hnumber : Mirrors r names (modify fun t => { t with branches := s.branches + 1 })
      (modify fun t => { t with branches := s.branches + 1 }) :=
    update _ _ (fun _ => rfl) fun _ hs => hs
  refine hnumber.bind fun _ => ?_
  exact (record (.branchNumbered s.branches)).bind fun _ => pure _

/-- The frames of the two runs find one slot. -/
theorem slot (hr : Set.InjOn r names) {name : Text} (hname : name ∈ names) :
    Mirrors r names (slot name) (slot (r name)) := by
  refine get fun s hs => ?_
  dsimp only
  rw [show (s.rename r).frame = s.frame.rename r from rfl, Frame.lookup?_rename hr hs hname]
  cases hlookup : s.frame.lookup? name with
  | none => exact throw (.exhausted name s.frame.capacity)
  | some found =>
    obtain ⟨slot, frame'⟩ := found
    have hframe : ∀ x ∈ frame'.names, x ∈ names := by
      intro x hx
      rcases (Frame.lookup?_some hlookup).2.only x hx with hx | hx
      · exact hs x hx
      · rwa [List.mem_singleton.1 hx]
    have hgrow : Mirrors r names (modify fun t => { t with frame := frame' })
        (modify fun t => { t with frame := frame'.rename r }) :=
      update _ _ (fun _ => rfl) fun _ _ => hframe
    simp only [Option.map_some, Frame.rename, List.length_map]
    refine ite (fun _ => hgrow.bind fun _ => ?_) fun _ => pure slot
    exact (record (.slotAssigned name slot)).bind fun _ => pure slot

theorem address (hr : Set.InjOn r names) {name : Text} (hname : name ∈ names) :
    Mirrors r names (address name) (address (r name)) :=
  (slot hr hname).bind fun _ => pure _

theorem asValue {gen gen' : Gen Code} (e : Node) (h : Mirrors r names gen gen') :
    Mirrors r names (asValue e gen) (asValue (e.rename r) gen') := by
  refine get fun s _ => h.bind fun code => get fun t _ => ?_
  refine ite (fun _ => ?_) fun _ => pure code
  exact (throw (.breach (.notAValue e (t.depth - s.depth)))).bind fun _ => pure code

theorem asStatement {gen gen' : Gen Code} (stmt : Node) (h : Mirrors r names gen gen') :
    Mirrors r names (asStatement stmt gen) (asStatement (stmt.rename r) gen') := by
  refine get fun s _ => h.bind fun code => get fun t _ => ?_
  refine ite (fun _ => pure code) fun _ => ite (fun _ => ?_) fun _ => ?_
  · exact (pop .rax).bind fun _ => pure _
  · exact throw (.breach (.leftOver stmt (t.depth - s.depth)))

theorem branchIfZero {gen gen' : Gen Code} (test : Node) (label : Text)
    (h : Mirrors r names gen gen') :
    Mirrors r names (branchIfZero test gen label) (branchIfZero (test.rename r) gen' label) :=
  (asValue test h).bind fun _ => (pop .rax).bind fun _ => pure _

end Mirrors

/-! ## Nodes -/

theorem isIdent_rename (r : Text → Text) (n : Node) : (n.rename r).isIdent = n.isIdent := by
  cases n with
  | _ => rfl

section Nodes

variable {r : Text → Text} {names : Set Text} (stem : Text)

mutual

theorem mirrors_node (hr : Set.InjOn r names) (n : Node) (hn : ∀ x ∈ n.idents, x ∈ names) :
    Mirrors r names (node stem n) (node stem (n.rename r)) := by
  match n with
  | .num value =>
    rw [Node.rename, node]
    exact .ite (fun _ => .push _) fun _ => (Mirrors.push _).bind fun _ => .pure _
  | .ident name =>
    have hname : name ∈ names := hn name List.mem_cons_self
    rw [Node.rename, node, node]
    exact (Mirrors.address hr hname).bind fun _ => (Mirrors.push _).bind fun _ => .pure _
  | .binary operator left right =>
    rw [Node.idents, List.forall_mem_append] at hn
    have hright : Mirrors r names _ _ := (mirrors_node hr right hn.2).asValue right
    rw [Node.rename]
    by_cases hassign : operator = .assign
    · subst hassign
      cases htarget : left.isIdent with
      | false =>
        -- A renamed target is a name only if the target is one.
        rw [node_assign_of_not_ident stem htarget,
          node_assign_of_not_ident stem ((isIdent_rename r left).trans htarget)]
        exact .throw (.breach (.notATarget left))
      | true =>
        obtain ⟨name, rfl⟩ := Node.exists_of_isIdent htarget
        have hname : name ∈ names := hn.1 name List.mem_cons_self
        rw [Node.rename, node, node]
        refine (Mirrors.address hr hname).bind fun _ => (Mirrors.push _).bind fun _ => ?_
        refine hright.bind fun _ => (Mirrors.pop _).bind fun _ => (Mirrors.pop _).bind fun _ => ?_
        exact (Mirrors.push _).bind fun _ => .pure _
    · have hleft : Mirrors r names _ _ := (mirrors_node hr left hn.1).asValue left
      rw [node_binary hassign, node_binary hassign]
      refine hleft.bind fun _ => hright.bind fun _ => ?_
      refine (Mirrors.pop _).bind fun _ => (Mirrors.pop _).bind fun _ => ?_
      cases operation? operator with
      | none => exact .throw (.breach (.unknownOperator operator))
      | some code => exact (Mirrors.push _).bind fun _ => .pure _
  | .ret value =>
    rw [Node.rename, node, node]
    refine ((mirrors_node hr value hn).asValue value).bind fun _ => ?_
    exact (Mirrors.pop _).bind fun _ => .pure _
  | .cond test yes no =>
    simp only [Node.idents, List.forall_mem_append] at hn
    obtain ⟨⟨htest, hyes⟩, hno⟩ := hn
    rw [Node.rename, node, node]
    refine (Mirrors.nextBranch stem).bind fun branch => ?_
    refine ((mirrors_node hr test htest).branchIfZero test branch.otherwise).bind fun _ => ?_
    refine ((mirrors_node hr yes hyes).asStatement yes).bind fun _ => ?_
    exact (mirrors_clause hr no hno).bind fun _ => .pure _
  | .loop test body =>
    rw [Node.idents, List.forall_mem_append] at hn
    rw [Node.rename, node, node]
    refine (Mirrors.nextBranch stem).bind fun branch => ?_
    refine ((mirrors_node hr test hn.1).branchIfZero test branch.finish).bind fun _ => ?_
    exact ((mirrors_node hr body hn.2).asStatement body).bind fun _ => .pure _
  | .iter init test step body =>
    simp only [Node.idents, List.forall_mem_append] at hn
    obtain ⟨⟨⟨hinit, htest⟩, hbody⟩, hstep⟩ := hn
    rw [Node.rename, node_iter, node_iter]
    refine (Mirrors.nextBranch stem).bind fun branch => ?_
    refine (mirrors_clause hr init hinit).bind fun _ => ?_
    have htest : Mirrors r names (optionalTest stem branch.finish test)
        (optionalTest stem branch.finish (Node.renameOptional r test)) := by
      cases test with
      | none => exact .pure []
      | some test => exact (mirrors_node hr test htest).branchIfZero test branch.finish
    refine htest.bind fun _ => ((mirrors_node hr body hbody).asStatement body).bind fun _ => ?_
    exact (mirrors_clause hr step hstep).bind fun _ => .pure _
  | .block body =>
    rw [Node.rename, node, node]
    exact mirrors_statements hr body hn

theorem mirrors_clause (hr : Set.InjOn r names) (o : Option Node)
    (ho : ∀ x ∈ Node.identsOptional o, x ∈ names) :
    Mirrors r names (clause stem o) (clause stem (Node.renameOptional r o)) := by
  match o with
  | none =>
    rw [Node.renameOptional, clause]
    exact .pure []
  | some stmt =>
    rw [Node.renameOptional, clause, clause]
    exact (mirrors_node hr stmt ho).asStatement stmt

theorem mirrors_statements (hr : Set.InjOn r names) (ns : List Node)
    (hns : ∀ x ∈ Node.identsAll ns, x ∈ names) :
    Mirrors r names (statements stem ns) (statements stem (Node.renameAll r ns)) := by
  match ns with
  | [] =>
    rw [Node.renameAll, statements]
    exact .pure []
  | stmt :: rest =>
    rw [Node.identsAll, List.forall_mem_append] at hns
    rw [Node.renameAll, statements, statements]
    refine ((mirrors_node hr stmt hns.1).asStatement stmt).bind fun _ => ?_
    exact (mirrors_statements hr rest hns.2).bind fun _ => .pure _

end

end Nodes

/-! ## Programs -/

theorem Program.isEmpty_rename (r : Text → Text) (p : Program) :
    (p.rename r).isEmpty = p.isEmpty := by
  cases p with
  | _ => rfl

theorem prologue_rename (r : Text → Text) (entry : Text) (frame : Frame) :
    prologue entry (frame.rename r) = prologue entry frame := by
  rw [prologue, prologue, Frame.size_rename]

section Programs

variable {r : Text → Text} {names : Set Text} (hr : Set.InjOn r names) {settings : Settings}
  (hcomments : settings.comments = false)

include hr hcomments

/-- Without comments nothing of a statement is written but its code. -/
theorem mirrors_body (p : Program) (hp : ∀ x ∈ Node.identsAll p, x ∈ names) :
    Mirrors r names (body settings p) (body settings (p.rename r)) := by
  induction p with
  | nil => exact .pure []
  | cons stmt rest ih =>
    rw [Node.identsAll, List.forall_mem_append] at hp
    rw [Program.rename, Node.renameAll, body, body]
    simp only [hcomments]
    refine ((mirrors_node settings.labelStem hr stmt hp.1).asStatement stmt).bind fun _ => ?_
    exact (ih hp.2).bind fun _ => .pure _

theorem mirrors_function (p : Program) (hp : ∀ x ∈ Node.identsAll p, x ∈ names) :
    Mirrors r names (function settings p) (function settings (p.rename r)) := by
  refine (mirrors_body hr hcomments p hp).bind fun code => .get fun s _ => ?_
  rw [show (s.rename r).frame = s.frame.rename r from rfl, prologue_rename,
    Program.isEmpty_rename]
  simp only [Frame.rename, List.length_map]
  exact (Mirrors.record (.finished s.frame.names.length s.branches)).bind fun _ => .pure _

end Programs

section Run

variable {r : Text → Text} {p : Program} (hr : Set.InjOn r {x | x ∈ Node.identsAll p})
  {settings : Settings} (hcomments : settings.comments = false)

include hr hcomments

/-- The empty frame holds no name, so the renamed run starts where the other does. -/
theorem run_rename :
    Ends (function settings p) (.initial settings.frameSlots)
      (fun lines s => run settings (p.rename r) = .ok lines (s.rename r))
      (fun f => ∃ t, run settings (p.rename r) = .error (f.rename r) t) :=
  (mirrors_function hr hcomments p (fun _ hx => hx) (.initial settings.frameSlots) nofun).mono
    (fun _ _ h => h.1) fun _ h => h

end Run
end Codegen

def CompileError.rename (r : Text → Text) : CompileError → CompileError
  | rejected reason => .rejected reason
  | settings problem => .settings problem
  | failed f => .failed (f.rename r)

open Codegen in
/-- A renamed program has the code of the program, or fails as it does. -/
theorem generate_rename {r : Text → Text} {p : Program}
    (hr : Set.InjOn r {x | x ∈ Node.identsAll p}) {settings : Settings}
    (hcomments : settings.comments = false) :
    (p.rename r).generate settings = (p.generate settings).mapError (CompileError.rename r) := by
  have hrun := run_rename hr (show settings.withDefaults.comments = false from hcomments)
  rcases generate_cases p settings with
    ⟨problem, hproblem, hgen⟩ | ⟨hproblem, ⟨lines, s, hok, hgen⟩ | ⟨f, s, herror, hgen⟩⟩
  · rw [hgen, generate_of_problem hproblem]
    rfl
  · rw [hgen, generate_of_run hproblem (hrun.of_ok hok)]
    rfl
  · obtain ⟨t, ht⟩ := hrun.of_error herror
    rw [hgen, generate_of_failure hproblem ht]
    rfl

/-- Names do not matter: a renaming that keeps the names of a program apart leaves its code as
it is, byte for byte.  Where the frame has no slot left for a name, it has none left for the
renamed one, under the same limit; and the renamed program is at fault where the program is. -/
theorem renamed_generates_alike {r : Text → Text} {p : Program}
    (hr : Set.InjOn r {x | x ∈ Node.identsAll p}) {settings : Settings}
    (hcomments : settings.comments = false) :
    (∀ code, (p.rename r).generate settings = .ok code ↔ p.generate settings = .ok code) ∧
    (∀ name' capacity,
      (p.rename r).generate settings = .error (.failed (.exhausted name' capacity)) ↔
        ∃ name, name' = r name ∧
          p.generate settings = .error (.failed (.exhausted name capacity))) ∧
    ∀ b', (p.rename r).generate settings = .error (.failed (.breach b')) ↔
      ∃ b, b' = b.rename r ∧ p.generate settings = .error (.failed (.breach b)) := by
  rw [generate_rename hr hcomments]
  cases p.generate settings with
  | ok code => simp [Except.mapError]
  | error e =>
    cases e with
    | rejected reason => simp [Except.mapError, CompileError.rename]
    | settings problem => simp [Except.mapError, CompileError.rename]
    | failed f =>
      cases f with
      | exhausted name capacity =>
        simp [Except.mapError, CompileError.rename, Codegen.Failure.rename, eq_comm]
      | breach b =>
        simp [Except.mapError, CompileError.rename, Codegen.Failure.rename, eq_comm]

/-- `a = b;` -/
def copyProgram : Program := [.binary .assign (.ident (utf8 "a")) (.ident (utf8 "b"))]

def copyCode : Text :=
  List.flatten
    [utf8 ".intel_syntax noprefix\n.globl main\nmain:\n  push rbp\n  mov rbp, rsp\n  sub rsp, 16\n",
    utf8 "  mov rax, rbp\n  sub rax, 8\n  push rax\n",
    utf8 "  mov rax, rbp\n  sub rax, 16\n  mov rax, [rax]\n  push rax\n",
    utf8 "  pop rdi\n  pop rax\n  mov [rax], rdi\n  push rdi\n  pop rax\n",
    utf8 "  mov rsp, rbp\n  pop rbp\n  ret\n"]

/-- A frame of one slot is full at the second name, and one of two slots has room for both,
whatever the names are. -/
theorem renamed_copy_exhausted :
    Set.InjOn (utf8 "_" ++ ·) {x | x ∈ Node.identsAll copyProgram} ∧
      (copyProgram.rename (utf8 "_" ++ ·)).generate { Settings.standard with frameSlots := 1 } =
        .error (.failed (.exhausted (utf8 "_b") 1)) ∧
      (copyProgram.rename (utf8 "_" ++ ·)).generate { Settings.standard with frameSlots := 2 } =
        .ok copyCode := by
  have happart : Set.InjOn (utf8 "_" ++ ·) {x | x ∈ Node.identsAll copyProgram} :=
    fun _ _ _ _ h => List.append_cancel_left h
  refine ⟨happart, ((renamed_generates_alike happart rfl).2.1 _ _).2 ⟨utf8 "b", by cbv, ?_⟩,
    ((renamed_generates_alike happart rfl).1 _).2 ?_⟩
  · cbv
  · cbv

end WordC
