import Mathlib.Data.List.Nodup
import WordC.Proofs.Codegen.Generate
import WordC.Proofs.Codegen.Labels
/-!
The numbers of the branches.

The choices and loops of a program are numbered in the order of their code, each before
those inside it.  The labels and jumps in the code are those of the constructs, and
every construct has its own around the ones of its parts.  So no label is defined twice,
and every jump goes to a label of its own construct.  None of this depends on the stem
of the labels.
-/

namespace WordC

namespace Asm

/-- The line is a label or a jump. -/
def Line.isBranching (l : Line) : Bool := l.label?.isSome || l.target?.isSome

/-- The labels and jumps among lines. -/
def branchLines (lines : List Line) : List Line := lines.filter Line.isBranching

theorem branchLines_append (xs ys : List Line) :
    branchLines (xs ++ ys) = branchLines xs ++ branchLines ys :=
  List.filter_append xs ys

theorem definedLabels_branchLines (lines : List Line) :
    definedLabels (branchLines lines) = definedLabels lines := by
  rw [definedLabels, branchLines, List.filterMap_filter]
  refine List.filterMap_congr fun l _ => ?_
  cases hlabel : l.label? with
  | none => exact ite_self _
  | some name => simp [Line.isBranching, hlabel]

end Asm

namespace Node

open Asm Codegen

mutual

/-- The choices and loops in a tree in the order of their code, each before those inside
it. -/
def constructs : Node → List Node
  | num _ => []
  | ident _ => []
  | binary _ left right => left.constructs ++ right.constructs
  | ret value => value.constructs
  | cond test yes no =>
    cond test yes no :: (test.constructs ++ yes.constructs ++ constructsOptional no)
  | loop test body => loop test body :: (test.constructs ++ body.constructs)
  | iter init test step body =>
    iter init test step body :: (constructsOptional init ++ constructsOptional test ++
      body.constructs ++ constructsOptional step)
  | block body => constructsAll body

def constructsOptional : Option Node → List Node
  | none => []
  | some n => n.constructs

def constructsAll : List Node → List Node
  | [] => []
  | n :: rest => n.constructs ++ constructsAll rest

end

/-- The jump behind a condition.  A missing condition has none. -/
def leaving (label : Text) : Option Node → List Line
  | none => []
  | some _ => [op (.jumpIf .e) [.target label]]

/-- The labels and jumps of a loop itself. -/
def looping (branch : Branch) (test : Option Node) : List Line :=
  .label branch.start :: leaving branch.finish test ++
    [op .jmp [.target branch.start], .label branch.finish]

/-- The labels and jumps of a construct itself, if it has the number `k`. -/
def ownLines (stem : Text) (k : Nat) : Node → List Line
  | cond test _ _ =>
    let branch := Branch.numbered stem k
    leaving branch.otherwise (some test) ++
      [op .jmp [.target branch.finish], .label branch.otherwise, .label branch.finish]
  | loop test _ => looping (.numbered stem k) (some test)
  | iter _ test _ _ => looping (.numbered stem k) test
  | _ => []

section

variable (stem : Text)

mutual

/-- The labels and jumps of a tree whose first construct has the number `k`. -/
def skeleton : Nat → Node → List Line
  | k, cond test yes no =>
    let branch := Branch.numbered stem k
    leaving branch.otherwise (some test) ++ yes.skeleton (k + 1) ++
      [op .jmp [.target branch.finish], .label branch.otherwise] ++
      skeletonOptional (k + 1 + yes.branches) no ++ [.label branch.finish]
  | k, loop test body =>
    let branch := Branch.numbered stem k
    .label branch.start :: leaving branch.finish (some test) ++ body.skeleton (k + 1) ++
      [op .jmp [.target branch.start], .label branch.finish]
  | k, iter init test step body =>
    let branch := Branch.numbered stem k
    let k₁ := k + 1 + branchesOptional init
    skeletonOptional (k + 1) init ++ .label branch.start :: leaving branch.finish test ++
      body.skeleton k₁ ++ skeletonOptional (k₁ + body.branches) step ++
      [op .jmp [.target branch.start], .label branch.finish]
  | k, block body => skeletonAll k body
  | _, _ => []

def skeletonOptional : Nat → Option Node → List Line
  | _, none => []
  | k, some n => n.skeleton k

def skeletonAll : Nat → List Node → List Line
  | _, [] => []
  | k, n :: rest => n.skeleton k ++ skeletonAll (k + n.branches) rest

end

end

/-! ## Constructs are statements -/

/-- There is no construct in an expression. -/
theorem constructs_value (e : Node) (he : e.isExpression = true) (hwell : ¬ e.IllFormed) :
    e.constructs = [] := by
  match e with
  | num _ => rfl
  | ident _ => rfl
  | binary operator left right =>
    obtain ⟨hleft, hright⟩ := binary_parts hwell
    rw [constructs, constructs_value left hleft.1 hleft.2, constructs_value right hright.1 hright.2,
      List.nil_append]

theorem constructs_test {test : Option Node}
    (h : ∀ e ∈ test, e.isExpression = true ∧ ¬ e.IllFormed) : constructsOptional test = [] := by
  cases test with
  | none => rfl
  | some e => exact constructs_value e (h e rfl).1 (h e rfl).2

mutual

theorem branches_eq (n : Node) (hwell : ¬ n.IllFormed) : n.branches = n.constructs.length := by
  match n with
  | num _ => rfl
  | ident _ => rfl
  | binary operator left right =>
    rw [constructs_value _ rfl hwell]
    rfl
  | ret value =>
    have hvalue := value_of_operands hwell List.mem_cons_self
    rw [constructs, constructs_value value hvalue.1 hvalue.2]
    rfl
  | cond test yes no =>
    obtain ⟨htest, hyes, hno⟩ := cond_parts hwell
    rw [constructs, constructs_value test htest.1 htest.2, List.nil_append, List.length_cons,
      List.length_append, ← branches_eq yes hyes, ← branchesOptional_eq no hno, branches]
    omega
  | loop test body =>
    obtain ⟨htest, hbody⟩ := loop_parts hwell
    rw [constructs, constructs_value test htest.1 htest.2, List.nil_append, List.length_cons,
      ← branches_eq body hbody, branches]
    omega
  | iter init test step body =>
    obtain ⟨hinit, htest, hbody, hstep⟩ := iter_parts hwell
    rw [constructs, constructs_test htest, List.append_nil, List.length_cons, List.length_append,
      List.length_append, ← branchesOptional_eq init hinit, ← branches_eq body hbody,
      ← branchesOptional_eq step hstep, branches]
    omega
  | block body => exact branchesAll_eq body fun m => not_illFormed_of_children hwell

theorem branchesOptional_eq (o : Option Node) (hwell : ∀ n ∈ o, ¬ n.IllFormed) :
    branchesOptional o = (constructsOptional o).length := by
  match o with
  | none => rfl
  | some n => exact branches_eq n (hwell n rfl)

theorem branchesAll_eq (ns : List Node) (hwell : ∀ n ∈ ns, ¬ n.IllFormed) :
    branchesAll ns = (constructsAll ns).length := by
  match ns with
  | [] => rfl
  | n :: rest =>
    have hfirst := branches_eq n (hwell n List.mem_cons_self)
    have hothers := branchesAll_eq rest fun m hm => hwell m (List.mem_cons_of_mem n hm)
    rw [branchesAll, constructsAll, List.length_append, hfirst, hothers]

end

/-! ## The constructs in the skeleton -/

/-- The labels and jumps of constructs that are numbered from `b` on. -/
def linesFrom (stem : Text) (b : Nat) (ns : List Node) : List Line :=
  (ns.zipIdx b).flatMap fun m => m.1.ownLines stem m.2

/-- Lines that are the labels and jumps of constructs numbered from `b` on, with the
skeleton of every construct in one piece. -/
structure Numbers (stem : Text) (b : Nat) (ns : List Node) (lines : List Line) : Prop where
  perm : lines.Perm (linesFrom stem b ns)
  placed : ∀ m ∈ ns.zipIdx b, m.1.skeleton stem m.2 <:+: lines

namespace Numbers

variable {stem : Text} {b : Nat} {xs ys zs : List Line} {ns ms ls : List Node}

theorem nil : Numbers stem b [] [] := ⟨.nil, nofun⟩

theorem append (h : Numbers stem b ns xs) (h' : Numbers stem (b + ns.length) ms ys) :
    Numbers stem b (ns ++ ms) (xs ++ ys) where
  perm := by
    rw [linesFrom, List.zipIdx_append, List.flatMap_append]
    exact h.perm.append h'.perm
  placed m hm := by
    rw [List.zipIdx_append] at hm
    rcases List.mem_append.1 hm with hm | hm
    · exact (h.placed m hm).trans (List.infix_append [] xs ys)
    · exact (h'.placed m hm).trans (List.suffix_append xs ys).isInfix

/-- A construct has its own lines around those of at most three parts. -/
theorem around {n : Node} {v w x y : List Line} (hxs : Numbers stem (b + 1) ns xs)
    (hys : Numbers stem (b + 1 + ns.length) ms ys)
    (hzs : Numbers stem (b + 1 + ns.length + ms.length) ls zs)
    (hskeleton : n.skeleton stem b = v ++ xs ++ w ++ ys ++ x ++ zs ++ y)
    (hown : n.ownLines stem b = v ++ w ++ x ++ y) :
    Numbers stem b (n :: (ns ++ ms ++ ls)) (n.skeleton stem b) where
  perm := by
    have hparts := (hxs.append hys).append
      (by rwa [List.length_append, ← Nat.add_assoc] : Numbers stem _ ls zs)
    have hlines : linesFrom stem b (n :: (ns ++ ms ++ ls)) =
        n.ownLines stem b ++ linesFrom stem (b + 1) (ns ++ ms ++ ls) := rfl
    rw [hlines, hskeleton, hown]
    refine .trans (List.perm_iff_count.2 fun l => ?_) (hparts.perm.append_left _)
    simp only [List.count_append]
    omega
  placed m hm := by
    simp only [List.zipIdx_cons, List.zipIdx_append, List.length_append, ← Nat.add_assoc,
      List.mem_cons, List.mem_append] at hm
    rw [hskeleton]
    rcases hm with rfl | ((hm | hm) | hm)
    · exact hskeleton ▸ List.infix_rfl
    · refine (hxs.placed m hm).trans ⟨v, w ++ ys ++ x ++ zs ++ y, ?_⟩
      simp only [List.append_assoc]
    · refine (hys.placed m hm).trans ⟨v ++ xs ++ w, x ++ zs ++ y, ?_⟩
      simp only [List.append_assoc]
    · exact (hzs.placed m hm).trans ⟨_, y, rfl⟩

end Numbers

mutual

theorem numbers_skeleton (stem : Text) (b : Nat) (n : Node) (hwell : ¬ n.IllFormed) :
    Numbers stem b n.constructs (n.skeleton stem b) := by
  match n with
  | num _ => exact .nil
  | ident _ => exact .nil
  | binary operator left right =>
    rw [constructs_value _ rfl hwell]
    exact .nil
  | ret value =>
    have hvalue := value_of_operands hwell List.mem_cons_self
    rw [constructs, constructs_value value hvalue.1 hvalue.2]
    exact .nil
  | cond test yes no =>
    obtain ⟨htest, hyes, hno⟩ := cond_parts hwell
    have hyes' := numbers_skeleton stem (b + 1) yes hyes
    have hno' := numbers_skeletonOptional stem (b + 1 + yes.branches) no hno
    rw [branches_eq yes hyes] at hno'
    rw [constructs, constructs_value test htest.1 htest.2, List.nil_append]
    have hall := Numbers.around (n := cond test yes no) hyes' hno' .nil
      (v := leaving (Branch.numbered stem b).otherwise (some test))
      (w := [op .jmp [.target (Branch.numbered stem b).finish],
        .label (Branch.numbered stem b).otherwise])
      (x := [.label (Branch.numbered stem b).finish]) (y := [])
      (by simp [skeleton, branches_eq yes hyes]) (by simp [ownLines])
    rwa [List.append_nil] at hall
  | loop test body =>
    obtain ⟨htest, hbody⟩ := loop_parts hwell
    have hbody' := numbers_skeleton stem (b + 1) body hbody
    rw [constructs, constructs_value test htest.1 htest.2, List.nil_append]
    have hall := Numbers.around (n := loop test body) hbody' .nil .nil
      (v := .label (Branch.numbered stem b).start ::
        leaving (Branch.numbered stem b).finish (some test))
      (w := [op .jmp [.target (Branch.numbered stem b).start],
        .label (Branch.numbered stem b).finish]) (x := []) (y := [])
      (by simp [skeleton]) (by simp [ownLines, looping])
    rwa [List.append_nil, List.append_nil] at hall
  | iter init test step body =>
    obtain ⟨hinit, htest, hbody, hstep⟩ := iter_parts hwell
    have hinit' := numbers_skeletonOptional stem (b + 1) init hinit
    have hbody' := numbers_skeleton stem (b + 1 + branchesOptional init) body hbody
    have hstep' := numbers_skeletonOptional stem (b + 1 + branchesOptional init + body.branches)
      step hstep
    rw [branchesOptional_eq init hinit] at hbody' hstep'
    rw [branches_eq body hbody] at hstep'
    rw [constructs, constructs_test htest, List.append_nil]
    exact Numbers.around (n := iter init test step body) hinit' hbody' hstep' (v := [])
      (w := .label (Branch.numbered stem b).start :: leaving (Branch.numbered stem b).finish test)
      (x := [])
      (y := [op .jmp [.target (Branch.numbered stem b).start],
        .label (Branch.numbered stem b).finish])
      (by simp [skeleton, branchesOptional_eq init hinit, branches_eq body hbody])
      (by simp [ownLines, looping])
  | block body => exact numbers_skeletonAll stem b body fun m => not_illFormed_of_children hwell

theorem numbers_skeletonOptional (stem : Text) (b : Nat) (o : Option Node)
    (hwell : ∀ n ∈ o, ¬ n.IllFormed) :
    Numbers stem b (constructsOptional o) (skeletonOptional stem b o) := by
  match o with
  | none => exact .nil
  | some n => exact numbers_skeleton stem b n (hwell n rfl)

theorem numbers_skeletonAll (stem : Text) (b : Nat) (ns : List Node)
    (hwell : ∀ n ∈ ns, ¬ n.IllFormed) :
    Numbers stem b (constructsAll ns) (skeletonAll stem b ns) := by
  match ns with
  | [] => exact .nil
  | n :: rest =>
    have hn := hwell n List.mem_cons_self
    have hothers := numbers_skeletonAll stem (b + n.branches) rest fun m hm =>
      hwell m (List.mem_cons_of_mem n hm)
    rw [constructsAll, skeletonAll]
    rw [branches_eq n hn] at hothers ⊢
    exact (numbers_skeleton stem b n hn).append hothers

end

/-! ## Labels and jumps -/

section

variable {stem : Text} {k : Nat}

theorem definedLabels_looping (branch : Branch) (test : Option Node) :
    definedLabels (looping branch test) = [branch.start, branch.finish] := by
  cases test with
  | none => rfl
  | some e => rfl

/-- The labels that a construct defines are different labels of its number. -/
theorem labels_ownLines (n : Node) :
    (definedLabels (n.ownLines stem k)).Nodup ∧
      definedLabels (n.ownLines stem k) ⊆ (Branch.numbered stem k).names := by
  have hloop : ∀ test, (definedLabels (looping (.numbered stem k) test)).Nodup ∧
      definedLabels (looping (.numbered stem k) test) ⊆ (Branch.numbered stem k).names := by
    intro test
    rw [definedLabels_looping]
    refine ⟨List.pairwise_pair.2 (Branch.start_ne_finish stem k k), ?_⟩
    simp [Branch.names]
  cases n with
  | cond test yes no =>
    exact ⟨List.pairwise_pair.2 (Branch.otherwise_ne_finish stem k k), List.subset_cons_self _ _⟩
  | loop test body => exact hloop (some test)
  | iter init test step body => exact hloop test
  | _ => exact ⟨List.nodup_nil, List.nil_subset _⟩

theorem target_leaving {label name : Text} {test : Option Node} {l : Line}
    (hl : l ∈ leaving label test) (hname : l.target? = some name) : label = name := by
  cases test with
  | none => cases hl
  | some e =>
    rw [List.mem_singleton.1 hl] at hname
    exact Option.some.inj hname

theorem target_looping {branch : Branch} {test : Option Node} {l : Line} {name : Text}
    (hl : l ∈ looping branch test) (hname : l.target? = some name) :
    .label name ∈ looping branch test := by
  simp only [looping, List.cons_append, List.mem_cons, List.mem_append, List.not_mem_nil,
    or_false] at hl ⊢
  rcases hl with rfl | hl | rfl | rfl
  · cases hname
  · rw [target_leaving hl hname]
    exact .inr (.inr (.inr rfl))
  · obtain rfl : branch.start = name := Option.some.inj hname
    exact .inl rfl
  · cases hname

/-- A construct jumps to its own labels. -/
theorem target_ownLines {n : Node} {l : Line} {name : Text} (hl : l ∈ n.ownLines stem k)
    (hname : l.target? = some name) : .label name ∈ n.ownLines stem k := by
  cases n with
  | cond test yes no =>
    rcases List.mem_append.1 hl with hl | hl
    · rw [← target_leaving hl hname]
      exact List.mem_append_right _ (by simp)
    · simp only [List.mem_cons, List.not_mem_nil, or_false] at hl
      rcases hl with rfl | rfl | rfl
      · obtain rfl : (Branch.numbered stem k).finish = name := Option.some.inj hname
        exact List.mem_append_right _ (by simp)
      · cases hname
      · cases hname
  | loop test body => exact target_looping hl hname
  | iter init test step body => exact target_looping hl hname
  | _ => cases hl

end

theorem nodup_linesFrom (stem : Text) (b : Nat) (ns : List Node) :
    (definedLabels (linesFrom stem b ns)).Nodup := by
  have hnumbers : (ns.zipIdx b).Pairwise fun m m' => m.2 ≠ m'.2 := by
    have hnodup : ((ns.zipIdx b).map Prod.snd).Nodup := by
      rw [List.zipIdx_map_snd]
      exact List.nodup_range'
    exact List.pairwise_map.1 hnodup
  rw [linesFrom, definedLabels, List.filterMap_flatMap, List.nodup_flatMap]
  refine ⟨fun m _ => (labels_ownLines m.1).1, hnumbers.imp fun hne name hm hm' => ?_⟩
  exact hne (Branch.number_of_names ((labels_ownLines _).2 hm) ((labels_ownLines _).2 hm'))

end Node

namespace Codegen

open Asm

/-! ## The skeleton of the code -/

/-- The labels and jumps among sites. -/
def siteBranches (sites : List Site) : List Line := branchLines (sites.map Site.line)

@[simp] theorem siteBranches_append (xs ys : List Site) :
    siteBranches (xs ++ ys) = siteBranches xs ++ siteBranches ys := by
  rw [siteBranches, List.map_append, branchLines_append]
  rfl

@[simp] theorem siteBranches_opening (sites : List Site) :
    siteBranches (opening sites) = siteBranches sites := by
  rw [siteBranches, map_line_opening]
  rfl

@[simp] theorem siteBranches_plain (depth : Nat) (code : Code) :
    siteBranches (plain depth code) = branchLines code := by
  rw [siteBranches, map_line_plain]

theorem siteBranches_straight {sites : List Site} (h : ∀ s ∈ sites, Straight s.line) :
    siteBranches sites = [] := by
  rw [siteBranches, branchLines, List.filter_eq_nil_iff]
  intro l hl
  obtain ⟨s, hs, rfl⟩ := List.mem_map.1 hl
  rw [Line.isBranching, (h s hs).label?, (h s hs).target?]
  decide

theorem siteBranches_testSites (slot : Text → Nat) (label : Text) (test : Option Node) :
    siteBranches (testSites slot label test) = Node.leaving label test := by
  cases test with
  | none => rfl
  | some e =>
    rw [testSites, siteBranches_append, siteBranches_straight (straight_takenSites slot e),
      siteBranches_plain]
    rfl

variable (slot : Text → Nat)

mutual

theorem siteBranches_stmtSites (stem : Text) (b : Nat) (n : Node) :
    siteBranches (stmtSites stem slot b n) = n.skeleton stem b := by
  match n with
  | .num value | .ident name | .binary operator left right =>
    rw [stmtSites_expression stem slot rfl b, siteBranches_opening]
    exact siteBranches_straight (straight_takenSites slot _)
  | .ret value =>
    rw [stmtSites, siteBranches_opening, siteBranches_append,
      siteBranches_straight (straight_takenSites slot value)]
    rfl
  | .cond test yes no =>
    have hyes := siteBranches_stmtSites stem (b + 1) yes
    have hno := siteBranches_optionalSites stem (b + 1 + yes.branches) no
    simp only [stmtSites, condSites, siteBranches_opening, siteBranches_append,
      siteBranches_plain, siteBranches_testSites, hyes, hno]
    rfl
  | .loop test body =>
    have hbody := siteBranches_stmtSites stem (b + 1) body
    simp only [stmtSites, loopSites, siteBranches_opening, siteBranches_append,
      siteBranches_plain, siteBranches_testSites, hbody, List.append_nil]
    rfl
  | .iter init test step body =>
    have hinit := siteBranches_optionalSites stem (b + 1) init
    have hbody := siteBranches_stmtSites stem (b + 1 + Node.branchesOptional init) body
    have hstep := siteBranches_optionalSites stem
      (b + 1 + Node.branchesOptional init + body.branches) step
    simp only [stmtSites, loopSites, siteBranches_opening, siteBranches_append,
      siteBranches_plain, siteBranches_testSites, hinit, hbody, hstep, Node.skeleton,
      List.append_assoc, List.cons_append]
    rfl
  | .block body =>
    rw [stmtSites, siteBranches_opening, siteBranches_allSites stem b body]
    rfl

theorem siteBranches_optionalSites (stem : Text) (b : Nat) (o : Option Node) :
    siteBranches (optionalSites stem slot b o) = Node.skeletonOptional stem b o := by
  match o with
  | none => rfl
  | some n => exact siteBranches_stmtSites stem b n

theorem siteBranches_allSites (stem : Text) (b : Nat) (ns : List Node) :
    siteBranches (allSites stem slot b ns) = Node.skeletonAll stem b ns := by
  match ns with
  | [] => rfl
  | n :: rest =>
    rw [allSites, siteBranches_append, siteBranches_stmtSites stem b n,
      siteBranches_allSites stem _ rest]
    rfl

end

theorem siteBranches_programSites (settings : Settings) (b : Nat) (p : Program) :
    siteBranches (programSites settings slot b p) =
      Node.skeletonAll settings.labelStem b p := by
  induction p generalizing b with
  | nil => rfl
  | cons n rest ih =>
    have hannounced : siteBranches (if settings.comments then plain 0 [announcement n] else []) =
        [] := by
      split
      · rfl
      · rfl
    rw [programSites, siteBranches_append, siteBranches_append, hannounced, List.nil_append,
      siteBranches_stmtSites, ih]
    rfl

end Codegen

open Asm Codegen

/-- The branches of a generated body.  There are as many as the program has choices and
loops.  The labels and jumps of the code are those of the program in order, where the
construct at the position `k` has the number `k`.  No label is defined twice, and every
jump goes to a label of its own construct. -/
theorem generated_branches_numbered {settings : Settings} {p : Program} {capacity : Word}
    {code : Code} {s : State} (h : body settings p (.initial capacity) = .ok code s) :
    s.branches = (Node.constructsAll p).length ∧
      branchLines code = Node.skeletonAll settings.labelStem 0 p ∧
      (∀ (k : Nat) (n : Node), (Node.constructsAll p)[k]? = some n →
        n.skeleton settings.labelStem k <:+: branchLines code) ∧
      (definedLabels code).Nodup ∧
      ∀ l ∈ code, ∀ name ∈ l.target?, ∃ (k : Nat) (n : Node),
        (Node.constructsAll p)[k]? = some n ∧ l ∈ n.ownLines settings.labelStem k ∧
        .label name ∈ n.ownLines settings.labelStem k ∧ .label name ∈ code := by
  have hwrote := body_wrote rfl h
  have hwell : ∀ n ∈ p, ¬ n.IllFormed := fun n hn hill =>
    ((settles_body settings p _).of_ok h).1 ⟨n, hn, hill⟩
  have hlines : branchLines code = Node.skeletonAll settings.labelStem 0 p := by
    rw [hwrote.code _ List.prefix_rfl]
    exact siteBranches_programSites _ settings 0 p
  have hnumbers := Node.numbers_skeletonAll settings.labelStem 0 p hwell
  rw [← hlines] at hnumbers
  refine ⟨?_, hlines, fun k n hn => ?_, ?_, fun l hl name hname => ?_⟩
  · rw [hwrote.branches, Node.branchesAll_eq p hwell]
    exact Nat.zero_add _
  · exact hnumbers.placed (n, k) (List.mem_zipIdx_iff_getElem?.2 hn)
  · rw [← definedLabels_branchLines]
    exact (hnumbers.perm.filterMap _).nodup_iff.2 (Node.nodup_linesFrom _ _ _)
  · have hbranch : l ∈ branchLines code :=
      List.mem_filter.2 ⟨hl, by simp [Line.isBranching, Option.mem_def.1 hname]⟩
    obtain ⟨⟨n, k⟩, hn, hown⟩ := List.mem_flatMap.1 (hnumbers.perm.mem_iff.1 hbranch)
    have hlabel := Node.target_ownLines hown hname
    have hmem : .label name ∈ branchLines code :=
      hnumbers.perm.mem_iff.2 (List.mem_flatMap.2 ⟨(n, k), hn, hlabel⟩)
    exact ⟨k, n, List.mem_zipIdx_iff_getElem?.1 hn, hown, hlabel, List.mem_of_mem_filter hmem⟩

/-- A loop with a loop in its body and a choice as its step, and a choice behind it. -/
def tangled : Program :=
  [.iter none (some (.num 1)) (some (.cond (.num 1) (.num 2) none)) (.loop (.num 0) (.num 3)),
    .cond (.num 4) (.block []) none]

/-- The step comes behind the body, so its choice has the number two. -/
theorem tangled_numbered :
    ∃ code s, body Settings.standard tangled (.initial 0) = .ok code s ∧ s.branches = 4 ∧
      [op (.jumpIf .e) [.target (utf8 ".Lelse2")], op .jmp [.target (utf8 ".Lend2")],
        .label (utf8 ".Lelse2"), .label (utf8 ".Lend2")] <:+: branchLines code ∧
      (definedLabels code).Nodup := by
  have hbody : body Settings.standard tangled (.initial 0) = .ok _ _ := rfl
  obtain ⟨hcount, -, hplaced, hnodup, -⟩ := generated_branches_numbered hbody
  exact ⟨_, _, hbody, hcount, hplaced 2 (.cond (.num 1) (.num 2) none) rfl, hnodup⟩

end WordC
