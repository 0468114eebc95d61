import WordC.Proofs.Simulation.Parts
/-!
The code of a statement does what the statement does.

There are two arguments, over the same parts.  For a run that may go on forever, the
induction is on the tree and a loop is followed for as many instructions as the run is
allowed.  For a statement that ends, the induction is on how it ends, and any property
of states can be carried back over it.
-/

namespace WordC
namespace Simulation

open Asm Evaluation Machine
open Codegen hiding State push pop run

variable {r : Routine} {accepts : Except Stop Word → Prop} {P : State → Prop}

/-! ## Where the parts of a construct stand -/

/-- The first branch and the jump over the second one stand at the other indices. -/
structure CondCode (r : Routine) (branch : Branch) (testCode yesCode noCode : List Site)
    (pos yes leave : Nat) : Prop where
  yes_eq : pos + width testCode = yes
  leave_eq : yes + width yesCode = leave
  atTest : r.At pos testCode
  atYes : r.At yes yesCode
  atLeave : r.Stands leave ⟨.jmp, [.target branch.finish]⟩ 0 none
  otherwise : r.image.index? branch.otherwise = some (leave + 1 : Nat)
  atNo : r.At (leave + 1) noCode
  finish : r.image.index? branch.finish = some (leave + 1 + width noCode : Nat)

theorem width_condSites (branch : Branch) (test yes no : List Site) :
    width (condSites branch test yes no) = width test + width yes + 1 + width no := by
  simp only [condSites, width_append]
  rfl

theorem condCode_of_at {branch : Branch} {test yes no : List Site} {pos : Nat}
    (hat : r.At pos (condSites branch test yes no)) :
    CondCode r branch test yes no pos (pos + width test) (pos + width test + width yes) := by
  simp only [condSites, Routine.at_append, width_append, ← Nat.add_assoc] at hat
  obtain ⟨⟨⟨⟨htest, hyes⟩, hleave, hotherwise, -⟩, hno⟩, hfinish, -⟩ := hat
  exact ⟨rfl, rfl, htest, hyes, hleave, hotherwise, hno, hfinish⟩

/-- The loop starts at `head`.  Its body, its step and the jump back stand at the other
indices, and it ends behind the jump. -/
structure LoopCode (r : Routine) (branch : Branch) (testCode bodyCode stepCode : List Site)
    (head body step back : Nat) : Prop where
  body_eq : head + width testCode = body
  step_eq : body + width bodyCode = step
  back_eq : step + width stepCode = back
  start : r.image.index? branch.start = some (head : Int)
  atTest : r.At head testCode
  atBody : r.At body bodyCode
  atStep : r.At step stepCode
  atBack : r.Stands back ⟨.jmp, [.target branch.start]⟩ 0 none
  finish : r.image.index? branch.finish = some (back + 1 : Nat)

theorem width_loopSites (branch : Branch) (test body step : List Site) :
    width (loopSites branch test body step) = width test + width body + width step + 1 := by
  have hstart : width (plain 0 [.label branch.start]) = 0 := rfl
  simp only [loopSites, width_append, hstart, Nat.zero_add]
  rfl

theorem loopCode_of_at {branch : Branch} {test body step : List Site} {head : Nat}
    (hat : r.At head (loopSites branch test body step)) :
    LoopCode r branch test body step head (head + width test) (head + width test + width body)
      (head + width test + width body + width step) := by
  have hstart : width (plain 0 [.label branch.start]) = 0 := rfl
  simp only [loopSites, Routine.at_append, width_append, hstart, Nat.zero_add, ← Nat.add_assoc,
    Nat.add_zero] at hat
  obtain ⟨⟨⟨⟨⟨hlabel, -⟩, htest⟩, hbody⟩, hstep⟩, hback, hfinish, -⟩ := hat
  exact ⟨rfl, rfl, rfl, hlabel, htest, hbody, hstep, hback, hfinish⟩

/-- An expression as a statement. -/
theorem ready_evaluate (hP : Closed r.image (r.demand accepts) P) {stem : Text} {b : Nat} {e : Node}
    {env : Env} {pos : Nat} (hexpression : e.isExpression = true) (he : e.isWellFormed = true)
    (hnames : ∀ x ∈ e.idents, x ∈ r.names) (hat : r.At pos (stmtSites stem r.names.idxOf b e))
    (h : Continues r accepts P (pos + width (stmtSites stem r.names.idxOf b e)) (env.evaluate e)) :
    Ready r P pos env := by
  have hvalue : e.isValue = true := by
    cases e with
    | num _ | ident _ | binary _ _ _ => exact he
    | _ => cases hexpression
  rw [stmtSites_expression _ _ hexpression] at hat h
  rw [width_opening] at h
  exact ready_expression hP hvalue hnames (Routine.at_opening.1 hat) h

theorem ready_ret (hP : Closed r.image (r.demand accepts) P) {e : Node} {env : Env} {pos fin : Nat}
    (he : e.isValue = true) (hnames : ∀ x ∈ e.idents, x ∈ r.names)
    (hat : r.At pos (takenSites r.names.idxOf e ++ plain 0 epilogue))
    (h : Continues r accepts P fin (env.answer e)) : Ready r P pos env := by
  obtain ⟨htaken, hepilogue⟩ := Routine.at_append.1 hat
  rw [Env.answer] at h
  refine ready_taken hP he hnames htaken (fun stop hstop => ?_) fun v σ hv rdi rdx flags => ?_
  · rw [hstop] at h
    exact h
  · rw [hv] at h
    exact good_epilogue hP (leaves_of_at hepilogue) rfl h

/-! ## Runs of a bounded length -/

/-- The demand on the routine is met for so many instructions. -/
abbrev Routine.Bounded (r : Routine) (accepts : Except Stop Word → Prop) (budget : Nat) :
    State → Prop :=
  Safe r.image (r.demand accepts) budget

/-- A run that is allowed no instruction meets the demand at any point of the code. -/
theorem ready_zero {i : Instruction} {assigns : Option Text} {pos : Nat} (env : Env)
    (hstands : r.Stands pos i 0 assigns) : Ready r (r.Bounded accepts 0) pos env := by
  intro rdi rdx flags s hs hpc
  have hhere : (r.demand accepts).here s := here_of_matches hstands hs hpc rfl
  obtain ⟨p, hfetch, -⟩ := hstands.fetch
  rw [← hpc] at hfetch
  exact Safe.zero (not_halted hpc) hfetch hhere

/-- A jump takes one of the instructions that are allowed. -/
theorem ready_succ {budget : Nat} {assigns : Option Text} {pos target : Nat} {name : Text}
    {env : Env} (hstands : r.Stands pos ⟨.jmp, [.target name]⟩ 0 assigns)
    (hname : r.image.index? name = some (target : Int))
    (h : Ready r (r.Bounded accepts budget) target env) :
    Ready r (r.Bounded accepts (budget + 1)) pos env := by
  intro rdi rdx flags s hs hpc
  have hhere : (r.demand accepts).here s := here_of_matches hstands hs hpc rfl
  obtain ⟨p, hfetch, hi⟩ := hstands.fetch
  have hexec := execute_jmp r.image s.counted hname
  rw [← hpc] at hfetch
  rw [← hi] at hexec
  refine Safe.step (not_halted hpc) hfetch hhere hexec (r.kept_refl _ _) ?_
  refine h rdi rdx flags _ ?_ rfl
  exact ⟨hs.rax, hs.rdi, hs.rdx, hs.flags, hs.rbx, hs.rcx, hs.rsi, hs.rbp, hs.rsp, hs.memory⟩

theorem Continues.pred {budget pos : Nat} {k : Ending}
    (h : Continues r accepts (r.Bounded accepts (budget + 1)) pos k) :
    Continues r accepts (r.Bounded accepts budget) pos k :=
  h.map fun _ hready rdi rdx flags s hs hpc => (hready rdi rdx flags s hs hpc).pred

section Loops

variable {branch : Branch} {test step : Option Node} {body : Node} {bodyCode stepCode : List Site}
  {head posBody posStep posBack : Nat} {env : Env}
  (hcode : LoopCode r branch (testSites r.names.idxOf branch.finish test) bodyCode stepCode head
    posBody posStep posBack)
  (htest : Node.isClause test = true) (hnames : ∀ x ∈ Node.identsOptional test, x ∈ r.names)

include hcode htest hnames

/-- One round of a loop, up to the jump back. -/
theorem ready_round (hP : Closed r.image (r.demand accepts) P)
    (hbody : ∀ env, (∀ k, Exec body env k → Continues r accepts P posStep k) → Ready r P posBody env)
    (hstep : ∀ env, (∀ k, ExecOptional step env k → Continues r accepts P posBack k) →
      Ready r P posStep env)
    (hback : ∀ env, (∀ k, Loops test body step env k → Continues r accepts P (posBack + 1) k) →
      Ready r P posBack env)
    (h : ∀ k, Loops test body step env k → Continues r accepts P (posBack + 1) k) :
    Ready r P head env := by
  refine ready_test hP htest hnames hcode.finish hcode.atTest (fun stop hstop => ?_)
    (fun env₁ htrue => ?_) fun env₁ hfalse => h _ (.done hfalse)
  · exact h _ (.stops hstop)
  · rw [hcode.body_eq]
    refine hbody env₁ fun k hk => ?_
    cases k with
    | returned v => exact h _ (.bodyLeaves htrue hk trivial)
    | stopped stop => exact h _ (.bodyLeaves htrue hk trivial)
    | next env₂ =>
      refine hstep env₂ fun k' hk' => ?_
      cases k' with
      | returned v => exact h _ (.stepLeaves htrue hk hk' trivial)
      | stopped stop => exact h _ (.stepLeaves htrue hk hk' trivial)
      | next env₃ => exact hback env₃ fun k'' hk'' => h _ (.again htrue hk hk' hk'')

/-- A loop is safe for any number of instructions, by induction on that number: every
round takes one of them for the jump back. -/
theorem bounded_loop (budget : Nat)
    (hbody : ∀ n env, (∀ k, Exec body env k → Continues r accepts (r.Bounded accepts n) posStep k) →
      Ready r (r.Bounded accepts n) posBody env)
    (hstep : ∀ n env,
      (∀ k, ExecOptional step env k → Continues r accepts (r.Bounded accepts n) posBack k) →
      Ready r (r.Bounded accepts n) posStep env)
    (h : ∀ k, Loops test body step env k →
      Continues r accepts (r.Bounded accepts budget) (posBack + 1) k) :
    Ready r (r.Bounded accepts budget) head env := by
  induction budget generalizing env with
  | zero =>
    exact ready_round hcode htest hnames (Safe.closed 0) (hbody 0) (hstep 0)
      (fun env' _ => ready_zero env' hcode.atBack) h
  | succ n ih =>
    refine ready_round hcode htest hnames (Safe.closed (n + 1)) (hbody (n + 1)) (hstep (n + 1))
      (fun env' h' => ready_succ hcode.atBack hcode.start ?_) h
    exact ih fun k hk => (h' k hk).pred

end Loops

section Bounded

variable {stem : Text}

mutual

theorem bounded_statement (n : Node) (hn : n.isWellFormed = true)
    (hnames : ∀ x ∈ n.idents, x ∈ r.names) (budget b pos : Nat) (env : Env)
    (hat : r.At pos (stmtSites stem r.names.idxOf b n))
    (h : ∀ k, Exec n env k → Continues r accepts (r.Bounded accepts budget)
      (pos + width (stmtSites stem r.names.idxOf b n)) k) :
    Ready r (r.Bounded accepts budget) pos env := by
  have hP : Closed r.image (r.demand accepts) (r.Bounded accepts budget) := Safe.closed budget
  match n with
  | .num v => exact ready_evaluate hP rfl hn hnames hat (h _ (.expression rfl))
  | .ident x => exact ready_evaluate hP rfl hn hnames hat (h _ (.expression rfl))
  | .binary operator left right => exact ready_evaluate hP rfl hn hnames hat (h _ (.expression rfl))
  | .ret e => exact ready_ret hP hn hnames (Routine.at_opening.1 hat) (h _ .ret)
  | .cond test yes no =>
    obtain ⟨htest, hyes, hno⟩ := Node.isWellFormed_cond hn
    have hcode := condCode_of_at (Routine.at_opening.1 hat)
    rw [stmtSites, width_opening, width_condSites, ← Nat.add_assoc, ← Nat.add_assoc,
      ← Nat.add_assoc] at h
    simp only [Node.idents, List.mem_append] at hnames
    refine ready_test hP (show Node.isClause (some test) = true from htest)
      (fun x hx => hnames x (.inl (.inl hx))) hcode.otherwise hcode.atTest
      (fun stop hstop => h _ (.condStops hstop)) (fun env' htrue => ?_) fun env' hfalse => ?_
    · refine bounded_statement yes hyes (fun x hx => hnames x (.inl (.inr hx))) budget _ _ env'
        hcode.atYes fun k hk => ?_
      exact (h k (.condYes htrue hk)).map fun _ => ready_jmp hP hcode.atLeave hcode.finish
    · exact bounded_optional no hno (fun x hx => hnames x (.inr hx)) budget _ _ env' hcode.atNo
        fun k hk => h k (.condNo hfalse hk)
  | .loop test body =>
    rw [Node.isWellFormed, Bool.and_eq_true] at hn
    have hcode := loopCode_of_at (Routine.at_opening.1 hat)
    rw [stmtSites, width_opening, width_loopSites] at h
    simp only [← Nat.add_assoc] at h
    simp only [Node.idents, List.mem_append] at hnames
    refine bounded_loop hcode (show Node.isClause (some test) = true from hn.1)
      (fun x hx => hnames x (.inl hx)) budget (fun n env' h' => ?_) (fun n env' h' => h' _ .none)
      fun k hk => h k (.loop hk)
    exact bounded_statement body hn.2 (fun x hx => hnames x (.inr hx)) n _ _ env' hcode.atBody h'
  | .iter init test step body =>
    simp only [Node.isWellFormed, Bool.and_eq_true] at hn
    obtain ⟨⟨⟨hinit, htest⟩, hstep⟩, hbody⟩ := hn
    obtain ⟨hatInit, hatLoop⟩ := Routine.at_append.1 (Routine.at_opening.1 hat)
    have hcode := loopCode_of_at hatLoop
    rw [stmtSites, width_opening, width_append, width_loopSites] at h
    simp only [← Nat.add_assoc] at h
    simp only [Node.idents, List.mem_append] at hnames
    refine bounded_optional init (Node.isWellFormed_of_isClause hinit)
      (fun x hx => hnames x (.inl (.inl (.inl hx)))) budget _ _ env hatInit fun k hk => ?_
    cases k with
    | returned v => exact h _ (.iterLeaves hk trivial)
    | stopped stop => exact h _ (.iterLeaves hk trivial)
    | next env' =>
      refine bounded_loop hcode htest (fun x hx => hnames x (.inl (.inl (.inr hx)))) budget
        (fun n env₁ h' => ?_) (fun n env₁ h' => ?_) fun k' hk' => h k' (.iter hk hk')
      · exact bounded_statement body hbody (fun x hx => hnames x (.inl (.inr hx))) n _ _ env₁
          hcode.atBody h'
      · exact bounded_optional step (Node.isWellFormed_of_isClause hstep)
          (fun x hx => hnames x (.inr hx)) n _ _ env₁ hcode.atStep h'
  | .block body =>
    rw [stmtSites, width_opening] at h
    exact bounded_statements body hn hnames budget b pos env (Routine.at_opening.1 hat)
      fun k hk => h k (.block hk)

theorem bounded_optional (n : Option Node) (hn : ∀ m ∈ n, m.isWellFormed = true)
    (hnames : ∀ x ∈ Node.identsOptional n, x ∈ r.names) (budget b pos : Nat) (env : Env)
    (hat : r.At pos (optionalSites stem r.names.idxOf b n))
    (h : ∀ k, ExecOptional n env k → Continues r accepts (r.Bounded accepts budget)
      (pos + width (optionalSites stem r.names.idxOf b n)) k) :
    Ready r (r.Bounded accepts budget) pos env := by
  match n with
  | none => exact h _ .none
  | some n =>
    exact bounded_statement n (hn n rfl) hnames budget b pos env hat fun k hk => h k (.some hk)

theorem bounded_statements (ns : List Node) (hn : Node.areWellFormed ns = true)
    (hnames : ∀ x ∈ Node.identsAll ns, x ∈ r.names) (budget b pos : Nat) (env : Env)
    (hat : r.At pos (allSites stem r.names.idxOf b ns))
    (h : ∀ k, ExecAll ns env k → Continues r accepts (r.Bounded accepts budget)
      (pos + width (allSites stem r.names.idxOf b ns)) k) :
    Ready r (r.Bounded accepts budget) pos env := by
  match ns with
  | [] => exact h _ .nil
  | n :: rest =>
    rw [Node.areWellFormed, Bool.and_eq_true] at hn
    simp only [Node.identsAll, List.mem_append] at hnames
    obtain ⟨hfirst, hrest⟩ := Routine.at_append.1 hat
    rw [allSites, width_append, ← Nat.add_assoc] at h
    refine bounded_statement n hn.1 (fun x hx => hnames x (.inl hx)) budget b pos env hfirst
      fun k hk => ?_
    cases k with
    | returned v => exact h _ (.leaves hk trivial)
    | stopped stop => exact h _ (.leaves hk trivial)
    | next env' =>
      exact bounded_statements rest hn.2 (fun x hx => hnames x (.inr hx)) budget _ _ env' hrest
        fun k' hk' => h k' (.cons hk hk')

end

end Bounded

/-! ## Statements that end -/

section Ending

variable {stem : Text}

mutual

theorem ready_statement (hP : Closed r.image (r.demand accepts) P) {n : Node} {env : Env}
    {k : Ending} (h : Exec n env k) (hn : n.isWellFormed = true)
    (hnames : ∀ x ∈ n.idents, x ∈ r.names) {b pos : Nat}
    (hat : r.At pos (stmtSites stem r.names.idxOf b n))
    (hk : Continues r accepts P (pos + width (stmtSites stem r.names.idxOf b n)) k) :
    Ready r P pos env := by
  match h with
  | .expression he => exact ready_evaluate hP he hn hnames hat hk
  | .ret => exact ready_ret hP hn hnames (Routine.at_opening.1 hat) hk
  | .condYes htrue hyes =>
    obtain ⟨htest, hyes', -⟩ := Node.isWellFormed_cond hn
    have hcode := condCode_of_at (Routine.at_opening.1 hat)
    rw [stmtSites, width_opening, width_condSites] at hk
    simp only [← Nat.add_assoc] at hk
    simp only [Node.idents, List.mem_append] at hnames
    refine ready_test_true hP (show Node.isClause (some _) = true from htest)
      (fun x hx => hnames x (.inl (.inl hx))) hcode.otherwise hcode.atTest htrue ?_
    refine ready_statement hP hyes hyes' (fun x hx => hnames x (.inl (.inr hx))) hcode.atYes ?_
    exact hk.map fun _ => ready_jmp hP hcode.atLeave hcode.finish
  | .condNo hfalse hno =>
    obtain ⟨htest, -, hno'⟩ := Node.isWellFormed_cond hn
    have hcode := condCode_of_at (Routine.at_opening.1 hat)
    rw [stmtSites, width_opening, width_condSites] at hk
    simp only [← Nat.add_assoc] at hk
    simp only [Node.idents, List.mem_append] at hnames
    refine ready_test_false hP (show Node.isClause (some _) = true from htest)
      (fun x hx => hnames x (.inl (.inl hx))) hcode.otherwise hcode.atTest hfalse ?_
    exact ready_optional hP hno hno' (fun x hx => hnames x (.inr hx)) hcode.atNo hk
  | .condStops hstop =>
    have htest := (Node.isWellFormed_cond hn).1
    have hcode := condCode_of_at (Routine.at_opening.1 hat)
    simp only [Node.idents, List.mem_append] at hnames
    exact ready_test_error hP (show Node.isClause (some _) = true from htest)
      (fun x hx => hnames x (.inl (.inl hx))) hcode.otherwise hcode.atTest hstop hk
  | .loop hloops =>
    rw [Node.isWellFormed, Bool.and_eq_true] at hn
    have hcode := loopCode_of_at (Routine.at_opening.1 hat)
    rw [stmtSites, width_opening, width_loopSites] at hk
    simp only [← Nat.add_assoc] at hk
    simp only [Node.idents, List.mem_append] at hnames
    refine ready_loops hP hloops (show Node.isClause (some _) = true from hn.1) hn.2 (by simp)
      (fun x hx => hnames x (.inl hx)) (fun x hx => hnames x (.inr hx))
      (by simp [Node.identsOptional]) (show LoopCode r _ _ _ (optionalSites stem _ 0 none) _ _ _ _
        from hcode) hk
  | .iter hinit hloops =>
    simp only [Node.isWellFormed, Bool.and_eq_true] at hn
    obtain ⟨⟨⟨hinit', htest⟩, hstep⟩, hbody⟩ := hn
    obtain ⟨hatInit, hatLoop⟩ := Routine.at_append.1 (Routine.at_opening.1 hat)
    have hcode := loopCode_of_at hatLoop
    rw [stmtSites, width_opening, width_append, width_loopSites] at hk
    simp only [← Nat.add_assoc] at hk
    simp only [Node.idents, List.mem_append] at hnames
    refine ready_optional hP hinit (Node.isWellFormed_of_isClause hinit')
      (fun x hx => hnames x (.inl (.inl (.inl hx)))) hatInit ?_
    exact ready_loops hP hloops htest hbody (Node.isWellFormed_of_isClause hstep)
      (fun x hx => hnames x (.inl (.inl (.inr hx)))) (fun x hx => hnames x (.inl (.inr hx)))
      (fun x hx => hnames x (.inr hx)) hcode hk
  | .iterLeaves hinit habrupt =>
    simp only [Node.isWellFormed, Bool.and_eq_true] at hn
    simp only [Node.idents, List.mem_append] at hnames
    exact ready_optional hP hinit (Node.isWellFormed_of_isClause hn.1.1.1)
      (fun x hx => hnames x (.inl (.inl (.inl hx))))
      (Routine.at_append.1 (Routine.at_opening.1 hat)).1 (hk.of_abrupt habrupt)
  | .block hall =>
    rw [stmtSites, width_opening] at hk
    exact ready_statements hP hall hn hnames (Routine.at_opening.1 hat) hk
termination_by structural h

theorem ready_optional (hP : Closed r.image (r.demand accepts) P) {n : Option Node} {env : Env}
    {k : Ending} (h : ExecOptional n env k) (hn : ∀ m ∈ n, m.isWellFormed = true)
    (hnames : ∀ x ∈ Node.identsOptional n, x ∈ r.names) {b pos : Nat}
    (hat : r.At pos (optionalSites stem r.names.idxOf b n))
    (hk : Continues r accepts P (pos + width (optionalSites stem r.names.idxOf b n)) k) :
    Ready r P pos env := by
  match h with
  | .none => exact hk
  | .some h => exact ready_statement hP h (hn _ rfl) hnames hat hk
termination_by structural h

theorem ready_loops (hP : Closed r.image (r.demand accepts) P) {test step : Option Node}
    {body : Node} {env : Env} {k : Ending} (h : Loops test body step env k)
    (htest : Node.isClause test = true) (hbody : body.isWellFormed = true)
    (hstep : ∀ m ∈ step, m.isWellFormed = true)
    (hnamesTest : ∀ x ∈ Node.identsOptional test, x ∈ r.names)
    (hnamesBody : ∀ x ∈ body.idents, x ∈ r.names)
    (hnamesStep : ∀ x ∈ Node.identsOptional step, x ∈ r.names) {branch : Branch}
    {b b' head posBody posStep posBack : Nat}
    (hcode : LoopCode r branch (testSites r.names.idxOf branch.finish test)
      (stmtSites stem r.names.idxOf b body) (optionalSites stem r.names.idxOf b' step) head posBody
      posStep posBack)
    (hk : Continues r accepts P (posBack + 1) k) : Ready r P head env := by
  match h with
  | .stops hstop =>
    exact ready_test_error hP htest hnamesTest hcode.finish hcode.atTest hstop hk
  | .done hfalse =>
    exact ready_test_false hP htest hnamesTest hcode.finish hcode.atTest hfalse hk
  | .again htrue hround hadvance hloops =>
    refine ready_test_true hP htest hnamesTest hcode.finish hcode.atTest htrue ?_
    rw [hcode.body_eq]
    refine ready_statement hP hround hbody hnamesBody hcode.atBody ?_
    rw [hcode.step_eq]
    refine ready_optional hP hadvance hstep hnamesStep hcode.atStep ?_
    rw [hcode.back_eq]
    refine ready_jmp hP hcode.atBack hcode.start ?_
    exact ready_loops hP hloops htest hbody hstep hnamesTest hnamesBody hnamesStep hcode hk
  | .bodyLeaves htrue hround habrupt =>
    refine ready_test_true hP htest hnamesTest hcode.finish hcode.atTest htrue ?_
    rw [hcode.body_eq]
    exact ready_statement hP hround hbody hnamesBody hcode.atBody (hk.of_abrupt habrupt)
  | .stepLeaves htrue hround hadvance habrupt =>
    refine ready_test_true hP htest hnamesTest hcode.finish hcode.atTest htrue ?_
    rw [hcode.body_eq]
    refine ready_statement hP hround hbody hnamesBody hcode.atBody ?_
    rw [hcode.step_eq]
    exact ready_optional hP hadvance hstep hnamesStep hcode.atStep (hk.of_abrupt habrupt)
termination_by structural h

theorem ready_statements (hP : Closed r.image (r.demand accepts) P) {ns : List Node} {env : Env}
    {k : Ending} (h : ExecAll ns env k) (hn : Node.areWellFormed ns = true)
    (hnames : ∀ x ∈ Node.identsAll ns, x ∈ r.names) {b pos : Nat}
    (hat : r.At pos (allSites stem r.names.idxOf b ns))
    (hk : Continues r accepts P (pos + width (allSites stem r.names.idxOf b ns)) k) :
    Ready r P pos env := by
  match h with
  | .nil => exact hk
  | .cons hfirst hothers =>
    rw [Node.areWellFormed, Bool.and_eq_true] at hn
    simp only [Node.identsAll, List.mem_append] at hnames
    obtain ⟨hatFirst, hatRest⟩ := Routine.at_append.1 hat
    rw [allSites, width_append, ← Nat.add_assoc] at hk
    refine ready_statement hP hfirst hn.1 (fun x hx => hnames x (.inl hx)) hatFirst ?_
    exact ready_statements hP hothers hn.2 (fun x hx => hnames x (.inr hx)) hatRest hk
  | .leaves hfirst habrupt =>
    rw [Node.areWellFormed, Bool.and_eq_true] at hn
    simp only [Node.identsAll, List.mem_append] at hnames
    exact ready_statement hP hfirst hn.1 (fun x hx => hnames x (.inl hx))
      (Routine.at_append.1 hat).1 (hk.of_abrupt habrupt)
termination_by structural h

end

end Ending

end Simulation
end WordC
