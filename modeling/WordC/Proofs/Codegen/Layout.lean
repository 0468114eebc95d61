import WordC.Codegen
/-!
The code of a tree, line by line, with what the generator knows of each line.

The generator hands out slots and branch numbers while it walks the tree.  Once
the frame is complete, the code of a tree depends on the slots, on the number of
its first branch and on nothing else, so it can be written down as a function of
the tree.  Each line carries the count of words that the generator has on the stack
when it writes the line, whether the line is the first instruction of a statement,
and the local that the line assigns.
-/

namespace WordC
namespace Node

mutual

/-- The names in a tree, as often as they occur. -/
def idents : Node → List Text
  | num _ => []
  | ident name => [name]
  | binary _ left right => left.idents ++ right.idents
  | ret value => value.idents
  | cond test yes no => test.idents ++ yes.idents ++ identsOptional no
  | loop test body => test.idents ++ body.idents
  | iter init test step body =>
    identsOptional init ++ identsOptional test ++ body.idents ++ identsOptional step
  | block body => identsAll body

def identsOptional : Option Node → List Text
  | none => []
  | some n => n.idents

def identsAll : List Node → List Text
  | [] => []
  | n :: rest => n.idents ++ identsAll rest

end

mutual

/-- How many branch numbers the code of a tree takes. -/
def branches : Node → Nat
  | cond _ yes no => 1 + yes.branches + branchesOptional no
  | loop _ body => 1 + body.branches
  | iter init _ step body => 1 + branchesOptional init + body.branches + branchesOptional step
  | block body => branchesAll body
  | _ => 0

def branchesOptional : Option Node → Nat
  | none => 0
  | some n => n.branches

def branchesAll : List Node → Nat
  | [] => 0
  | n :: rest => n.branches + branchesAll rest

end
end Node

namespace Codegen

open Asm

/-- A line of code and what the generator knows of it. -/
structure Site where
  line : Line
  /-- The words that the code before the line has on the stack. -/
  depth : Nat
  /-- The line is the first instruction of a statement. -/
  opens : Bool
  /-- The local that the line assigns. -/
  assigns : Option Text
deriving Repr, DecidableEq

namespace Site

def isInstruction (s : Site) : Bool :=
  match s.line with
  | .instruction _ => true
  | _ => false

end Site

/-- Lines that are written at the same count. -/
def plain (depth : Nat) (code : Code) : List Site := code.map fun line => ⟨line, depth, false, none⟩

theorem map_line_plain (depth : Nat) (code : Code) : (plain depth code).map Site.line = code := by
  rw [plain, List.map_map]
  exact List.map_id code

theorem opens_plain (depth : Nat) (code : Code) : ∀ s ∈ plain depth code, s.opens = false := by
  intro s hs
  obtain ⟨l, -, rfl⟩ := List.mem_map.1 hs
  rfl

/-- The first instruction opens a statement. -/
def opening : List Site → List Site
  | [] => []
  | s :: rest => if s.isInstruction then { s with opens := true } :: rest else s :: opening rest

theorem map_line_opening (sites : List Site) :
    (opening sites).map Site.line = sites.map Site.line := by
  induction sites with
  | nil => rfl
  | cons s rest ih =>
    rw [opening]
    split
    · rfl
    · rw [List.map_cons, List.map_cons, ih]

/-- The code that leaves the address of a slot in `rax`. -/
def slotAddress (slot : Nat) : Code :=
  [op .mov [.register .rax, .register .rbp],
    op (.arith .sub) [.register .rax, .immediate (Int64.ofNat (Frame.offset slot))]]

section Values

variable (slot : Text → Nat)

/-- The code of an expression that starts with `depth` words on the stack. -/
def valueSites : Nat → Node → List Site
  | depth, .num value =>
    if isShort value then plain depth [op .push [.immediate value]]
    else plain depth [op .mov [.register .rax, .immediate value], op .push [.register .rax]]
  | depth, .ident name =>
    plain depth (slotAddress (slot name) ++
      [op .mov [.register .rax, .memory .rax 0], op .push [.register .rax]])
  | depth, .binary .assign left right =>
    match left with
    | .ident name =>
      plain depth (slotAddress (slot name) ++ [op .push [.register .rax]]) ++
        valueSites (depth + 1) right ++ plain (depth + 2) [op .pop [.register .rdi]] ++
        plain (depth + 1) [op .pop [.register .rax]] ++
        [⟨op .mov [.memory .rax 0, .register .rdi], depth, false, some name⟩] ++
        plain depth [op .push [.register .rdi]]
    | _ => []
  | depth, .binary operator left right =>
    valueSites depth left ++ valueSites (depth + 1) right ++
      plain (depth + 2) [op .pop [.register .rdi]] ++
      plain (depth + 1) [op .pop [.register .rax]] ++
      plain depth ((operation? operator).getD [] ++ [op .push [.register .rax]])
  | _, _ => []

theorem valueSites_binary {operator : Operator} (h : operator ≠ .assign) (depth : Nat)
    (left right : Node) :
    valueSites slot depth (.binary operator left right) =
      valueSites slot depth left ++ valueSites slot (depth + 1) right ++
        plain (depth + 2) [op .pop [.register .rdi]] ++
        plain (depth + 1) [op .pop [.register .rax]] ++
        plain depth ((operation? operator).getD [] ++ [op .push [.register .rax]]) := by
  cases operator with
  | assign => exact absurd rfl h
  | _ => rfl

/-- No statement starts inside an expression. -/
theorem opens_valueSites (depth : Nat) (e : Node) :
    ∀ s ∈ valueSites slot depth e, s.opens = false := by
  fun_induction valueSites slot depth e with
  | case1 depth value hshort => exact opens_plain depth _
  | case2 depth value hlong => exact opens_plain depth _
  | case3 depth name => exact opens_plain depth _
  | case4 depth right name ih =>
    simp only [List.forall_mem_append]
    exact ⟨⟨⟨⟨⟨opens_plain _ _, ih⟩, opens_plain _ _⟩, opens_plain _ _⟩,
      List.forall_mem_singleton.2 rfl⟩, opens_plain _ _⟩
  | case5 => exact List.forall_mem_nil _
  | case6 depth operator left right hassign ihleft ihright =>
    simp only [List.forall_mem_append]
    exact ⟨⟨⟨⟨ihleft, ihright⟩, opens_plain _ _⟩, opens_plain _ _⟩, opens_plain _ _⟩
  | case7 => exact List.forall_mem_nil _

/-- A value moved to `rax`. -/
def takenSites (e : Node) : List Site :=
  valueSites slot 0 e ++ plain 1 [op .pop [.register .rax]]

/-- A condition that jumps away when it is zero.  A missing one never does. -/
def testSites (label : Text) : Option Node → List Site
  | none => []
  | some test =>
    takenSites slot test ++
      plain 0 [op .cmp [.register .rax, .immediate 0], op (.jumpIf .e) [.target label]]

end Values

/-- A choice around its parts. -/
def condSites (branch : Branch) (test yes no : List Site) : List Site :=
  test ++ yes ++ plain 0 [op .jmp [.target branch.finish], .label branch.otherwise] ++ no ++
    plain 0 [.label branch.finish]

/-- A loop around its parts. -/
def loopSites (branch : Branch) (test body step : List Site) : List Site :=
  plain 0 [.label branch.start] ++ test ++ body ++ step ++
    plain 0 [op .jmp [.target branch.start], .label branch.finish]

section Statements

variable (stem : Text) (slot : Text → Nat)

mutual

/-- The code of a statement whose first branch has the number `b`. -/
def stmtSites : Nat → Node → List Site
  | _, .ret value => opening (takenSites slot value ++ plain 0 epilogue)
  | b, .cond test yes no =>
    let branch := Branch.numbered stem b
    opening (condSites branch (testSites slot branch.otherwise (some test)) (stmtSites (b + 1) yes)
      (optionalSites (b + 1 + yes.branches) no))
  | b, .loop test body =>
    let branch := Branch.numbered stem b
    opening (loopSites branch (testSites slot branch.finish (some test)) (stmtSites (b + 1) body) [])
  | b, .iter init test step body =>
    let branch := Branch.numbered stem b
    let b₁ := b + 1 + Node.branchesOptional init
    opening (optionalSites (b + 1) init ++
      loopSites branch (testSites slot branch.finish test) (stmtSites b₁ body)
        (optionalSites (b₁ + body.branches) step))
  | b, .block body => opening (allSites b body)
  | _, e => opening (takenSites slot e)

def optionalSites : Nat → Option Node → List Site
  | _, none => []
  | b, some n => stmtSites b n

def allSites : Nat → List Node → List Site
  | _, [] => []
  | b, n :: rest => stmtSites b n ++ allSites (b + n.branches) rest

end

theorem stmtSites_expression {e : Node} (h : e.isExpression = true) (b : Nat) :
    stmtSites stem slot b e = opening (takenSites slot e) := by
  cases e with
  | num _ | ident _ | binary _ _ _ => rfl
  | _ => cases h

end Statements

section Programs

variable (settings : Settings) (slot : Text → Nat)

/-- The top-level statements from the branch number `b` on, announced where comments are
on. -/
def programSites : Nat → Program → List Site
  | _, [] => []
  | b, n :: rest =>
    (if settings.comments then plain 0 [announcement n] else []) ++
      stmtSites settings.labelStem slot b n ++ programSites (b + n.branches) rest

/-- What stands between the prologue and the last epilogue. -/
def bodySites (p : Program) : List Site :=
  if p.isEmpty then plain 0 [op .mov [.register .rax, .immediate 0]]
  else programSites settings slot 0 p

end Programs
end Codegen
end WordC
