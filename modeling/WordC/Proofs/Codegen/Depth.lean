import WordC.Proofs.Codegen.Generate
/-!
The count of words on the stack, followed along the code.

The generator counts a word up for every `push` it writes and down for every `pop`,
except for the one in an epilogue, so its counter can be told from the lines.  The
depths of a layout are this count: it starts and ends at zero, it is zero where a
statement starts, and the deepest is the greatest value that the counter had.
-/

namespace WordC
namespace Codegen

open Asm

/-- The count behind a line. -/
def countAfter (depth : Nat) : Line → Nat
  | .instruction ⟨.push, _⟩ => depth + 1
  | .instruction ⟨.pop, operands⟩ => if operands = [.register .rbp] then depth else depth - 1
  | _ => depth

/-- Nothing but a `push` raises the count. -/
theorem countAfter_le {l : Line} (h : ∀ operands, l ≠ .instruction ⟨.push, operands⟩)
    (depth : Nat) : countAfter depth l ≤ depth := by
  unfold countAfter
  split
  · next operands => exact absurd rfl (h operands)
  · split <;> omega
  · exact Nat.le_refl depth

/-! ## The counter of the generator -/

/-- The lines move the generator's counter from one value to another. -/
def Tracks (gen : Gen Code) : Prop :=
  ∀ s s' code, gen s = .ok code s' → s'.depth = code.foldl countAfter s.depth

/-- A count and its greatest value so far. -/
structure Gauge where
  depth : Nat
  peak : Nat

def State.gauge (s : State) : Gauge := ⟨s.depth, s.peak⟩

namespace Gauge

/-- The gauge behind a line. -/
def after (g : Gauge) : Line → Gauge
  | .instruction ⟨.push, _⟩ => ⟨g.depth + 1, max g.peak (g.depth + 1)⟩
  | l => ⟨countAfter g.depth l, g.peak⟩

theorem depth_after (g : Gauge) (l : Line) : (g.after l).depth = countAfter g.depth l := by
  rw [after.eq_def]
  split <;> rfl

theorem after_eq {depth peak : Nat} (h : depth ≤ peak) (l : Line) :
    after ⟨depth, peak⟩ l = ⟨countAfter depth l, max peak (countAfter depth l)⟩ := by
  by_cases hpush : ∃ operands, l = .instruction ⟨.push, operands⟩
  · obtain ⟨operands, rfl⟩ := hpush
    rfl
  · have hother : ∀ operands, l ≠ .instruction ⟨.push, operands⟩ :=
      fun operands hl => hpush ⟨operands, hl⟩
    rw [after, Nat.max_eq_left (Nat.le_trans (countAfter_le hother depth) h)]
    exact hother

theorem depth_foldl (g : Gauge) (code : Code) :
    (code.foldl after g).depth = code.foldl countAfter g.depth := by
  induction code generalizing g with
  | nil => rfl
  | cons l rest ih => rw [List.foldl_cons, List.foldl_cons, ih, depth_after]

end Gauge

theorem countAfter_pop {r : Register} (hr : r ≠ .rbp) (depth : Nat) :
    countAfter depth (op .pop [.register r]) = depth - 1 := by
  refine if_neg fun heq => hr ?_
  injection heq with heq
  injection heq with heq
  injection heq

theorem gauge_pop {r : Register} (hr : r ≠ .rbp) (g : Gauge) :
    g.after (op .pop [.register r]) = ⟨g.depth - 1, g.peak⟩ :=
  congrArg (Gauge.mk · g.peak) (countAfter_pop hr g.depth)

theorem gauge_operation {operator : Operator} {code : Code}
    (h : operation? operator = some code) (g : Gauge) : code.foldl Gauge.after g = g := by
  cases operator with
  | assign | unknown _ => cases h
  | _ =>
    cases h
    rfl

/-- The lines tell the generator's counter and its greatest value. -/
def Gauges (gen : Gen Code) : Prop :=
  ∀ s s' code, gen s = .ok code s' → s'.gauge = code.foldl Gauge.after s.gauge

namespace Gauges

variable {gen : Gen Code}

theorem tracks (h : Gauges gen) : Tracks gen := by
  intro s s' code hgen
  have hdepth := congrArg Gauge.depth (h s s' code hgen)
  rwa [Gauge.depth_foldl] at hdepth

theorem nil : Gauges (pure []) := by
  intro s s' code h
  cases h
  rfl

theorem push (operand : Operand) : Gauges (push operand) := by
  intro s s' code h
  cases h
  rfl

theorem pop {r : Register} (hr : r ≠ .rbp) : Gauges (pop r) := by
  intro s s' code h
  obtain ⟨rfl, -, rfl⟩ := pop_ok h
  exact (gauge_pop hr s.gauge).symm

theorem asValue (e : Node) (hgen : Gauges gen) : Gauges (asValue e gen) :=
  fun s s' code h => hgen s s' code (asValue_ok h).1

theorem asStatement (n : Node) (hgen : Gauges gen) : Gauges (asStatement n gen) := by
  intro s s' code h
  rcases asStatement_ok h with ⟨hcode, -⟩ | ⟨code₁, s₁, hcode, hdepth, rfl, rfl⟩
  · exact hgen s s' code hcode
  · have hpop : s.depth = s₁.depth - 1 := by omega
    rw [List.foldl_append, ← hgen s s₁ code₁ hcode]
    refine Eq.trans ?_ (gauge_pop (r := .rax) (by decide) s₁.gauge).symm
    exact congrArg (Gauge.mk · s₁.peak) hpop

end Gauges

/-- Started where the lines `before` have moved the gauge, the generator ends in lines that
tell its gauge from the same one on. -/
def GaugesAfter (before : Code) (gen : Gen Code) : Prop :=
  ∀ g s s' code, s.gauge = before.foldl Gauge.after g → gen s = .ok code s' →
    s'.gauge = code.foldl Gauge.after g

namespace GaugesAfter

variable {before code : Code}

theorem gauges {gen : Gen Code} (h : GaugesAfter [] gen) : Gauges gen :=
  fun s s' code hgen => h s.gauge s s' code rfl hgen

/-- The lines are put together in the order they were written, with others among them that leave
the count alone. -/
theorem pure (h : ∀ g, code.foldl Gauge.after g = before.foldl Gauge.after g) :
    GaugesAfter before (pure code) := by
  intro g s s' code' hs hgen
  cases hgen
  rw [hs, h]

theorem throw (f : Failure) : GaugesAfter before (throw f) := by
  intro g s s' code hs hgen
  cases hgen

theorem bind {x : Gen Code} {f : Code → Gen Code} (hx : Gauges x)
    (hf : ∀ code, GaugesAfter (before ++ code) (f code)) : GaugesAfter before (x >>= f) := by
  intro g s s' code hs hgen
  obtain ⟨first, s₁, hfirst, hrest⟩ := bind_ok hgen
  refine hf first g s₁ s' code ?_ hrest
  rw [List.foldl_append, ← hs]
  exact hx s s₁ first hfirst

/-- What writes no line leaves the gauge alone. -/
theorem quiet {α : Type} {x : Gen α} {f : α → Gen Code}
    (hx : ∀ s s' a, x s = .ok a s' → s'.gauge = s.gauge) (hf : ∀ a, GaugesAfter before (f a)) :
    GaugesAfter before (x >>= f) := by
  intro g s s' code hs hgen
  obtain ⟨a, s₁, ha, hrest⟩ := bind_ok hgen
  exact hf a g s₁ s' code ((hx s s₁ a ha).trans hs) hrest

theorem nextBranch {stem : Text} {f : Branch → Gen Code}
    (hf : ∀ branch, GaugesAfter before (f branch)) :
    GaugesAfter before (nextBranch stem >>= f) := by
  refine quiet (fun s s' branch h => ?_) hf
  cases h
  rfl

end GaugesAfter

theorem gauge_slot {x : Text} {s s' : State} {k : Nat} (h : slot x s = .ok k s') :
    s'.gauge = s.gauge := by
  obtain ⟨_, _, hget, h⟩ := bind_ok h
  cases hget
  dsimp only at h
  cases hlookup : s.frame.lookup? x with
  | none =>
    rw [hlookup] at h
    cases h
  | some found =>
    rw [hlookup] at h
    dsimp only at h
    split at h
    · cases h
      rfl
    · cases h
      rfl

theorem Gauges.address (x : Text) : Gauges (address x) :=
  GaugesAfter.gauges (.quiet (fun _ _ _ => gauge_slot) fun _ => .pure fun _ => rfl)

theorem Gauges.branchIfZero {gen : Gen Code} (e : Node) (label : Text) (hgen : Gauges gen) :
    Gauges (branchIfZero e gen label) := by
  refine GaugesAfter.gauges (.bind (.asValue e hgen) fun value => ?_)
  refine .bind (.pop (by decide)) fun popped => .pure fun g => ?_
  simp only [List.foldl_append]
  rfl

mutual

theorem gauges_node (stem : Text) (n : Node) : Gauges (node stem n) := by
  match n with
  | .num value =>
    rw [node]
    split
    · exact .push _
    · exact GaugesAfter.gauges (.bind (.push _) fun pushed => .pure fun _ => rfl)
  | .ident name =>
    rw [node]
    refine GaugesAfter.gauges (.bind (.address name) fun place => ?_)
    refine .bind (.push _) fun pushed => .pure fun g => ?_
    simp only [List.foldl_append]
    rfl
  | .binary operator left right =>
    by_cases hassign : operator = .assign
    · subst hassign
      cases left with
      | ident name =>
        rw [node]
        refine GaugesAfter.gauges (.bind (.address name) fun place => ?_)
        refine .bind (.push _) fun held => ?_
        refine .bind (.asValue right (gauges_node stem right)) fun value => ?_
        refine .bind (.pop (by decide)) fun value' => .bind (.pop (by decide)) fun held' => ?_
        refine .bind (.push _) fun pushed => .pure fun g => ?_
        simp only [List.foldl_append]
        rfl
      | _ => exact GaugesAfter.gauges (.throw _)
    · rw [node_binary hassign]
      refine GaugesAfter.gauges (.bind (.asValue left (gauges_node stem left)) fun left' => ?_)
      refine .bind (.asValue right (gauges_node stem right)) fun right' => ?_
      refine .bind (.pop (by decide)) fun _ => .bind (.pop (by decide)) fun _ => ?_
      cases hoperation : operation? operator with
      | none => exact .throw _
      | some lines =>
        refine .bind (.push _) fun pushed => .pure fun g => ?_
        simp only [List.foldl_append, gauge_operation hoperation]
        rfl
  | .ret value =>
    rw [node]
    refine GaugesAfter.gauges (.bind (.asValue value (gauges_node stem value)) fun value' => ?_)
    refine .bind (.pop (by decide)) fun popped => .pure fun g => ?_
    simp only [List.foldl_append]
    rfl
  | .cond test yes no =>
    rw [node]
    refine GaugesAfter.gauges (.nextBranch fun branch => ?_)
    refine .bind (.branchIfZero test _ (gauges_node stem test)) fun test' => ?_
    refine .bind (.asStatement yes (gauges_node stem yes)) fun yes' => ?_
    refine .bind (gauges_clause stem no) fun no' => .pure fun g => ?_
    simp only [List.foldl_append]
    rfl
  | .loop test body =>
    rw [node]
    refine GaugesAfter.gauges (.nextBranch fun branch => ?_)
    refine .bind (.branchIfZero test _ (gauges_node stem test)) fun test' => ?_
    refine .bind (.asStatement body (gauges_node stem body)) fun body' => .pure fun g => ?_
    simp only [List.foldl_append]
    rfl
  | .iter init test step body =>
    have htest (label : Text) : Gauges (optionalTest stem label test) := by
      cases test with
      | none => exact .nil
      | some e => exact .branchIfZero e label (gauges_node stem e)
    rw [node_iter]
    refine GaugesAfter.gauges (.nextBranch fun branch => ?_)
    refine .bind (gauges_clause stem init) fun init' => .bind (htest _) fun test' => ?_
    refine .bind (.asStatement body (gauges_node stem body)) fun body' => ?_
    refine .bind (gauges_clause stem step) fun step' => .pure fun g => ?_
    simp only [List.foldl_append]
    rfl
  | .block body =>
    rw [node]
    exact gauges_statements stem body

theorem gauges_clause (stem : Text) (o : Option Node) : Gauges (clause stem o) := by
  match o with
  | none =>
    rw [clause]
    exact .nil
  | some n =>
    rw [clause]
    exact .asStatement n (gauges_node stem n)

theorem gauges_statements (stem : Text) (ns : List Node) : Gauges (statements stem ns) := by
  match ns with
  | [] =>
    rw [statements]
    exact .nil
  | n :: rest =>
    rw [statements]
    refine GaugesAfter.gauges (.bind (.asStatement n (gauges_node stem n)) fun first => ?_)
    exact .bind (gauges_statements stem rest) fun others => .pure fun _ => rfl

end

theorem gauges_body (settings : Settings) (p : Program) : Gauges (body settings p) := by
  induction p with
  | nil => exact .nil
  | cons n rest ih =>
    refine GaugesAfter.gauges (.bind (.asStatement n (gauges_node _ n)) fun first => ?_)
    refine .bind ih fun others => .pure fun _ => ?_
    cases settings.comments <;> rfl

/-! ## The depths of a layout -/

/-- The depths of the sites are the count, which goes from one value to another. -/
def Counted : Nat → List Site → Nat → Prop
  | depth, [], final => depth = final
  | depth, s :: rest, final => s.depth = depth ∧ Counted (countAfter depth s.line) rest final

/-- The greatest value that the count takes. -/
def deepest : List Site → Nat
  | [] => 0
  | s :: rest => max (max s.depth (countAfter s.depth s.line)) (deepest rest)

theorem countAfter_le_deepest {sites : List Site} {s : Site} (h : s ∈ sites) :
    s.depth ≤ deepest sites ∧ countAfter s.depth s.line ≤ deepest sites := by
  induction sites with
  | nil => cases h
  | cons s' rest ih =>
    rw [deepest]
    rcases List.mem_cons.1 h with rfl | h
    · omega
    · have := ih h
      omega

namespace Counted

theorem append {depth middle final : Nat} {xs ys : List Site} (h : Counted depth xs middle)
    (h' : Counted middle ys final) : Counted depth (xs ++ ys) final := by
  induction xs generalizing depth with
  | nil =>
    rw [show depth = middle from h]
    exact h'
  | cons s rest ih => exact ⟨h.1, ih h.2⟩

/-- The lines of counted sites lead the gauge to the greatest of their depths. -/
theorem gauge {depth final peak : Nat} {sites : List Site} (h : Counted depth sites final)
    (hpeak : depth ≤ peak) :
    (sites.map Site.line).foldl Gauge.after ⟨depth, peak⟩ = ⟨final, max peak (deepest sites)⟩ := by
  induction sites generalizing depth peak with
  | nil =>
    rw [show depth = final from h]
    exact congrArg (Gauge.mk final) (Nat.max_zero peak).symm
  | cons s rest ih =>
    rw [List.map_cons, List.foldl_cons, Gauge.after_eq hpeak, ih h.2 (Nat.le_max_right _ _),
      deepest, h.1]
    refine congrArg (Gauge.mk final) ?_
    omega

theorem opening {depth final : Nat} {sites : List Site} (h : Counted depth sites final) :
    Counted depth (opening sites) final := by
  induction sites generalizing depth with
  | nil => exact h
  | cons s rest ih =>
    rw [Codegen.opening]
    split
    · exact h
    · exact ⟨h.1, ih h.2⟩

end Counted

theorem Counted.pop (depth : Nat) {r : Register} (hr : r ≠ .rbp) :
    Counted (depth + 1) (Codegen.plain (depth + 1) [op .pop [.register r]]) depth :=
  ⟨rfl, countAfter_pop hr (depth + 1)⟩

theorem counted_operation (operator : Operator) (depth : Nat) :
    Counted depth (plain depth ((operation? operator).getD [])) depth := by
  cases operator with
  | assign | unknown _ => rfl
  | add | sub | mul => exact ⟨rfl, rfl⟩
  | div => exact ⟨rfl, rfl, rfl⟩
  | less | lessEqual | greater | greaterEqual | equal | notEqual => exact ⟨rfl, rfl, rfl, rfl⟩

theorem counted_value (slot : Text → Nat) {e : Node} (he : e.isValue = true) (depth : Nat) :
    Counted depth (valueSites slot depth e) (depth + 1) := by
  induction e, he using Node.isValue_induction generalizing depth with
  | num value h =>
    rw [valueSites]
    split
    · exact ⟨rfl, rfl⟩
    · exact ⟨rfl, rfl, rfl⟩
  | ident name h => exact ⟨rfl, rfl, rfl, rfl, rfl⟩
  | assign name right h hright ih =>
    have hplace : Counted depth
        (plain depth (slotAddress (slot name) ++ [op .push [.register .rax]])) (depth + 1) :=
      ⟨rfl, rfl, rfl, rfl⟩
    have hpopped := ((hplace.append (ih (depth + 1))).append
      (.pop (depth + 1) (by decide : Register.rdi ≠ .rbp))).append
      (.pop depth (by decide : Register.rax ≠ .rbp))
    have hstored : Counted depth
        [⟨op .mov [.memory .rax 0, .register .rdi], depth, false, some name⟩] depth := ⟨rfl, rfl⟩
    have hpushed : Counted depth (plain depth [op .push [.register .rdi]]) (depth + 1) := ⟨rfl, rfl⟩
    exact (hpopped.append hstored).append hpushed
  | binary operator left right h hleft hright hop hassign ihleft ihright =>
    rw [valueSites_binary slot hassign]
    have hpopped := (((ihleft depth).append (ihright (depth + 1))).append
      (.pop (depth + 1) (by decide : Register.rdi ≠ .rbp))).append
      (.pop depth (by decide : Register.rax ≠ .rbp))
    have hpushed : Counted depth (plain depth [op .push [.register .rax]]) (depth + 1) := ⟨rfl, rfl⟩
    refine hpopped.append ?_
    rw [plain, List.map_append]
    exact (counted_operation operator depth).append hpushed

/-! ## Where statements start -/

/-- The line does not belong to an epilogue that is under way. -/
def Outside (l : Line) : Prop := l ∉ epilogue.tail

instance (l : Line) : Decidable (Outside l) := inferInstanceAs (Decidable (_ ∉ _))

theorem outside_operation (operator : Operator) :
    ∀ l ∈ (operation? operator).getD [], Outside l := by
  cases operator with
  | assign | unknown _ => nofun
  | _ => decide

theorem outside_plain {depth : Nat} {code : Code} (h : ∀ l ∈ code, Outside l) :
    ∀ s ∈ plain depth code, Outside s.line := by
  intro s hs
  obtain ⟨l, hl, rfl⟩ := List.mem_map.1 hs
  exact h l hl

/-- No value leaves the function. -/
theorem outside_value (slot : Text → Nat) (depth : Nat) (e : Node) :
    ∀ s ∈ valueSites slot depth e, Outside s.line := by
  fun_induction valueSites slot depth e with
  | case1 depth value hshort => exact outside_plain (by simp [Outside, epilogue, op])
  | case2 depth value hlong => exact outside_plain (by simp [Outside, epilogue, op])
  | case3 depth name => exact outside_plain (by simp [Outside, epilogue, op, slotAddress])
  | case4 depth right name ih =>
    have hstore : Outside (op .mov [.memory .rax 0, .register .rdi]) := by decide
    simp only [List.forall_mem_append]
    refine ⟨⟨⟨⟨⟨outside_plain ?_, ih⟩, outside_plain (by decide)⟩, outside_plain (by decide)⟩,
      List.forall_mem_singleton.2 hstore⟩, outside_plain (by decide)⟩
    simp [Outside, epilogue, op, slotAddress]
  | case5 => exact List.forall_mem_nil _
  | case6 depth operator left right hassign ihleft ihright =>
    simp only [List.forall_mem_append]
    refine ⟨⟨⟨⟨ihleft, ihright⟩, outside_plain (by decide)⟩, outside_plain (by decide)⟩,
      outside_plain ?_⟩
    exact List.forall_mem_append.2 ⟨outside_operation operator, by decide⟩
  | case7 => exact List.forall_mem_nil _

/-- The sites of a statement: the count starts and ends at zero, and it is zero where a
statement starts.  No statement starts inside an epilogue. -/
structure Balanced (sites : List Site) : Prop where
  counted : Counted 0 sites 0
  first : ∀ s, sites.find? Site.isInstruction = some s → Outside s.line
  opens : ∀ s ∈ sites, s.opens = true → s.depth = 0 ∧ Outside s.line

namespace Balanced

theorem nil : Balanced [] := ⟨rfl, nofun, nofun⟩

theorem append {xs ys : List Site} (h : Balanced xs) (h' : Balanced ys) : Balanced (xs ++ ys) := by
  refine ⟨h.counted.append h'.counted, fun s hs => ?_, List.forall_mem_append.2 ⟨h.opens, h'.opens⟩⟩
  rw [List.find?_append, Option.or_eq_some_iff] at hs
  rcases hs with hs | ⟨-, hs⟩
  · exact h.first s hs
  · exact h'.first s hs

theorem plain {code : Code} (h : Counted 0 (plain 0 code) 0) (hcode : ∀ l ∈ code, Outside l) :
    Balanced (plain 0 code) := by
  refine ⟨h, fun s hs => ?_, fun s hs hopens => ?_⟩
  · exact outside_plain hcode s (List.mem_of_find?_eq_some hs)
  · rw [opens_plain 0 code s hs] at hopens
    cases hopens

/-- An epilogue starts outside of itself. -/
theorem epilogue : Balanced (Codegen.plain 0 epilogue) := by
  refine ⟨⟨rfl, rfl, rfl, rfl⟩, fun s hs => ?_, fun s hs hopens => ?_⟩
  · cases hs
    decide
  · rw [opens_plain 0 _ s hs] at hopens
    cases hopens

theorem find?_opening (sites : List Site) :
    (Codegen.opening sites).find? Site.isInstruction =
      (sites.find? Site.isInstruction).map fun s => { s with opens := true } := by
  induction sites with
  | nil => rfl
  | cons s rest ih =>
    rw [Codegen.opening]
    split
    · next hline =>
      have hopened : ({ s with opens := true } : Site).isInstruction = true := hline
      rw [List.find?_cons_of_pos hopened, List.find?_cons_of_pos hline]
      rfl
    · next hline => rw [List.find?_cons_of_neg hline, List.find?_cons_of_neg hline, ih]

/-- What stands in front of the first instruction does not count. -/
theorem opens_opening {sites : List Site} {final : Nat} (hcounted : Counted 0 sites final)
    (hfirst : ∀ s, sites.find? Site.isInstruction = some s → Outside s.line)
    (hopens : ∀ s ∈ sites, s.opens = true → s.depth = 0 ∧ Outside s.line) :
    ∀ s ∈ Codegen.opening sites, s.opens = true → s.depth = 0 ∧ Outside s.line := by
  induction sites with
  | nil => exact hopens
  | cons s rest ih =>
    have hrest : ∀ s' ∈ rest, s'.opens = true → s'.depth = 0 ∧ Outside s'.line :=
      fun s' hs' => hopens s' (List.mem_cons_of_mem s hs')
    rw [Codegen.opening]
    split
    · next hline =>
      have hs := hfirst s (List.find?_cons_of_pos hline)
      exact List.forall_mem_cons.2 ⟨fun _ => ⟨hcounted.1, hs⟩, hrest⟩
    · next hline =>
      have hsame : countAfter 0 s.line = 0 := by
        cases hs : s.line with
        | instruction i => simp [Site.isInstruction, hs] at hline
        | _ => rfl
      have htail := hcounted.2
      rw [hsame] at htail
      rw [List.find?_cons_of_neg hline] at hfirst
      exact List.forall_mem_cons.2 ⟨hopens s List.mem_cons_self, ih htail hfirst hrest⟩

theorem opening {sites : List Site} (h : Balanced sites) : Balanced (opening sites) := by
  refine ⟨h.counted.opening, fun s hs => ?_, opens_opening h.counted h.first h.opens⟩
  rw [find?_opening, Option.map_eq_some_iff] at hs
  obtain ⟨s', hs', rfl⟩ := hs
  exact h.first s' hs'

end Balanced

theorem balanced_taken (slot : Text → Nat) {e : Node} (he : e.isValue = true) :
    Balanced (takenSites slot e) := by
  have hclosed : ∀ s ∈ takenSites slot e, s.opens = false :=
    List.forall_mem_append.2 ⟨opens_valueSites slot 0 e, opens_plain 1 _⟩
  have houtside : ∀ s ∈ takenSites slot e, Outside s.line :=
    List.forall_mem_append.2 ⟨outside_value slot 0 e, outside_plain (by decide)⟩
  refine ⟨(counted_value slot he 0).append (.pop 0 (by decide : Register.rax ≠ .rbp)),
    fun s hs => houtside s (List.mem_of_find?_eq_some hs), fun s hs hopens => ?_⟩
  rw [hclosed s hs] at hopens
  cases hopens

theorem balanced_test (slot : Text → Nat) (label : Text) {test : Option Node}
    (h : Node.isClause test = true) : Balanced (testSites slot label test) := by
  cases test with
  | none => exact .nil
  | some e =>
    exact (balanced_taken slot h).append (.plain ⟨rfl, rfl, rfl⟩ (by simp [Outside, epilogue, op]))

theorem balanced_loop {branch : Branch} {test body step : List Site} (htest : Balanced test)
    (hbody : Balanced body) (hstep : Balanced step) :
    Balanced (loopSites branch test body step) := by
  refine ((((Balanced.plain ?_ ?_).append htest).append hbody).append hstep).append (.plain ?_ ?_)
  · exact ⟨rfl, rfl⟩
  · simp [Outside, epilogue, op]
  · exact ⟨rfl, rfl, rfl⟩
  · simp [Outside, epilogue, op]

section Statements

variable {stem : Text} (slot : Text → Nat)

mutual

theorem balanced_statement (b : Nat) (n : Node) (h : n.isWellFormed = true) :
    Balanced (stmtSites stem slot b n) := by
  match n with
  | .num value => exact (balanced_taken slot h).opening
  | .ident name => exact (balanced_taken slot h).opening
  | .binary operator left right => exact (balanced_taken slot h).opening
  | .ret value =>
    exact ((balanced_taken slot h).append .epilogue).opening
  | .cond test yes no =>
    obtain ⟨htest, hyes, hno⟩ := Node.isWellFormed_cond h
    refine Balanced.opening ?_
    refine (((Balanced.append ?_ ?_).append ?_).append ?_).append ?_
    · exact balanced_test slot _ (show Node.isClause (some test) = true from htest)
    · exact balanced_statement (b + 1) yes hyes
    · exact .plain ⟨rfl, rfl, rfl⟩ (by simp [Outside, epilogue, op])
    · exact balanced_optional _ no hno
    · exact .plain ⟨rfl, rfl⟩ (by simp [Outside, epilogue, op])
  | .loop test body =>
    rw [Node.isWellFormed, Bool.and_eq_true] at h
    exact (balanced_loop (balanced_test slot _ (show Node.isClause (some test) = true from h.1))
      (balanced_statement (b + 1) body h.2) .nil).opening
  | .iter init test step body =>
    simp only [Node.isWellFormed, Bool.and_eq_true] at h
    obtain ⟨⟨⟨hinit, htest⟩, hstep⟩, hbody⟩ := h
    refine (Balanced.append ?_ (balanced_loop ?_ ?_ ?_)).opening
    · exact balanced_optional (b + 1) init (Node.isWellFormed_of_isClause hinit)
    · exact balanced_test slot _ htest
    · exact balanced_statement _ body hbody
    · exact balanced_optional _ step (Node.isWellFormed_of_isClause hstep)
  | .block body => exact (balanced_statements b body h).opening

theorem balanced_optional (b : Nat) (n : Option Node) (h : ∀ m ∈ n, m.isWellFormed = true) :
    Balanced (optionalSites stem slot b n) := by
  match n with
  | none => exact .nil
  | some n => exact balanced_statement b n (h n rfl)

theorem balanced_statements (b : Nat) (ns : List Node) (h : Node.areWellFormed ns = true) :
    Balanced (allSites stem slot b ns) := by
  match ns with
  | [] => exact .nil
  | n :: rest =>
    rw [Node.areWellFormed, Bool.and_eq_true] at h
    exact (balanced_statement b n h.1).append (balanced_statements (b + n.branches) rest h.2)

end

end Statements

theorem balanced_program (settings : Settings) (slot : Text → Nat) (b : Nat) {p : Program}
    (h : Node.areWellFormed p = true) : Balanced (programSites settings slot b p) := by
  induction p generalizing b with
  | nil => exact .nil
  | cons n rest ih =>
    rw [Node.areWellFormed, Bool.and_eq_true] at h
    refine (Balanced.append ?_ (balanced_statement slot b n h.1)).append (ih (b + n.branches) h.2)
    split
    · exact .plain ⟨rfl, rfl⟩ (by simp [Outside, epilogue, op, announcement])
    · exact .nil

theorem balanced_body (settings : Settings) (slot : Text → Nat) {p : Program}
    (h : Node.areWellFormed p = true) : Balanced (bodySites settings slot p) := by
  rw [bodySites]
  split
  · exact .plain ⟨rfl, rfl⟩ (by decide)
  · exact balanced_program settings slot 0 h

/-- The greatest value that the generator's counter takes is the greatest depth of a site. -/
theorem peak_of_run {settings : Settings} {p : Program} {code : Code} {s : State}
    (hwell : Node.areWellFormed p = true) (h : run settings p = .ok code s) :
    s.peak = deepest (bodySites settings s.frame.names.idxOf p) := by
  obtain ⟨bodyCode, s₁, hbody, h⟩ := bind_ok h
  obtain ⟨_, _, hget, h⟩ := bind_ok h
  cases hget
  obtain ⟨_, s₂, hrecord, h⟩ := bind_ok h
  cases hrecord
  cases h
  have hgauge := gauges_body settings p _ _ _ hbody
  have hcode := (body_wrote rfl hbody).code s₁.frame.names List.prefix_rfl
  have hcounted := (balanced_body settings s₁.frame.names.idxOf hwell).counted
  cases p with
  | nil =>
    cases hbody
    rfl
  | cons n rest =>
    rw [hcode] at hgauge
    have hpeak := congrArg Gauge.peak (hgauge.trans (hcounted.gauge (Nat.le_refl 0)))
    exact hpeak.trans (Nat.zero_max _)

end Codegen
end WordC
