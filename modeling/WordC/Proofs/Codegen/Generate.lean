import WordC.Proofs.Codegen.Layout
import WordC.Proofs.Codegen.Outcome
/-!
The generator writes the layout.

For each part of the generator there is one lemma that says what a success means.
The frame only grows, so the slot that a name had when a line was written is its
slot in the finished frame.
-/

namespace WordC

namespace Frame

/-- No name has two slots, and a limit is kept. -/
def Sound (f : Frame) : Prop :=
  f.names.Nodup ∧ (0 < f.capacity → (f.names.length : Int) ≤ f.capacity.toInt)

/-- The frame has grown by names among `used`, and holds all of those. -/
structure Grows (f f' : Frame) (used : List Text) : Prop where
  capacity : f'.capacity = f.capacity
  names : f.names <+: f'.names
  holds : ∀ x ∈ used, x ∈ f'.names
  only : ∀ x ∈ f'.names, x ∈ f.names ∨ x ∈ used
  sound : f.Sound → f'.Sound

namespace Grows

theorem refl (f : Frame) : Grows f f [] :=
  ⟨rfl, List.prefix_rfl, nofun, fun _ => .inl, id⟩

theorem trans {f f' f'' : Frame} {used used' : List Text} (h : Grows f f' used)
    (h' : Grows f' f'' used') : Grows f f'' (used ++ used') where
  capacity := h'.capacity.trans h.capacity
  names := h.names.trans h'.names
  holds x hx := by
    rcases List.mem_append.1 hx with hx | hx
    · exact h'.names.subset (h.holds x hx)
    · exact h'.holds x hx
  only x hx := by
    rcases h'.only x hx with hx | hx
    · rcases h.only x hx with hx | hx
      · exact .inl hx
      · exact .inr (List.mem_append_left _ hx)
    · exact .inr (List.mem_append_right _ hx)
  sound hf := h'.sound (h.sound hf)

end Grows

theorem idxOf_of_prefix {names names' : List Text} (h : names <+: names') {x : Text}
    (hx : x ∈ names) : names'.idxOf x = names.idxOf x := by
  obtain ⟨more, rfl⟩ := h
  rw [List.idxOf_append, if_pos hx]

/-- A name gets the slot that it has in the frame afterwards. -/
theorem lookup?_some {f f' : Frame} {x : Text} {k : Nat} (h : f.lookup? x = some (k, f')) :
    k = f'.names.idxOf x ∧ Grows f f' [x] := by
  unfold lookup? at h
  split at h
  · next slot hslot =>
    obtain ⟨rfl, rfl⟩ := Prod.mk.inj (Option.some.inj h)
    obtain ⟨hlt, hidx⟩ := List.findIdx?_eq_some_iff_findIdx_eq.1 hslot
    have hmem : x ∈ f.names := List.isSome_idxOf?.1 (by rw [hslot]; rfl)
    refine ⟨hidx.symm, rfl, List.prefix_rfl, ?_, fun _ => .inl, id⟩
    intro y hy
    rwa [List.mem_singleton.1 hy]
  · next hslot =>
    have hmem : x ∉ f.names := List.idxOf?_eq_none_iff.1 hslot
    split at h
    · cases h
    · next hfull =>
      obtain ⟨rfl, rfl⟩ := Prod.mk.inj (Option.some.inj h)
      refine ⟨?_, rfl, List.prefix_append _ _, ?_, fun y => List.mem_append.1, ?_⟩
      · rw [List.idxOf_append, if_neg hmem, List.idxOf_cons_self, Nat.zero_add]
      · intro y hy
        exact List.mem_append_right _ hy
      · intro hsound
        refine ⟨?_, fun hpos => ?_⟩
        · refine List.nodup_append.2 ⟨hsound.1, by simp, ?_⟩
          intro y hy z hz heq
          rw [List.mem_singleton.1 hz] at heq
          exact hmem (heq ▸ hy)
        · have hroom : ¬ f.capacity.toInt ≤ f.names.length := by
            intro hle
            exact hfull (by simp [isFull, hle, show (0 : Word) < f.capacity from hpos])
          change ((f.names ++ [x]).length : Int) ≤ f.capacity.toInt
          rw [List.length_append, List.length_singleton]
          omega

/-- Only a new name makes the frame longer. -/
theorem lookup?_same {f f' : Frame} {x : Text} {k : Nat} (h : f.lookup? x = some (k, f'))
    (hlength : ¬ f.names.length < f'.names.length) : f' = f := by
  unfold lookup? at h
  split at h
  · exact (Prod.mk.inj (Option.some.inj h)).2.symm
  · split at h
    · cases h
    · obtain ⟨-, rfl⟩ := Prod.mk.inj (Option.some.inj h)
      exact absurd (by simp) hlength

end Frame

namespace Codegen

open Asm

/-! ## What success means -/

variable {s s' : State}

theorem pop_ok {r : Register} {code : Code} (h : pop r s = .ok code s') :
    code = [op .pop [.register r]] ∧ 0 < s.depth ∧ s' = { s with depth := s.depth - 1 } := by
  obtain ⟨_, _, hget, h⟩ := bind_ok h
  cases hget
  dsimp only at h
  split at h
  · cases h
  · next hdepth =>
    cases h
    exact ⟨rfl, Nat.pos_of_ne_zero hdepth, rfl⟩

theorem asValue_ok {e : Node} {gen : Gen Code} {code : Code}
    (h : asValue e gen s = .ok code s') : gen s = .ok code s' ∧ s'.depth = s.depth + 1 := by
  obtain ⟨_, _, hget, h⟩ := bind_ok h
  cases hget
  obtain ⟨code', s₁, hgen, h⟩ := bind_ok h
  obtain ⟨_, _, hget, h⟩ := bind_ok h
  cases hget
  dsimp only at h
  split at h
  · cases h
  · next hdepth =>
    cases h
    exact ⟨hgen, Decidable.not_not.1 hdepth⟩

/-- A statement leaves no value, or its value is taken off the stack. -/
theorem asStatement_ok {n : Node} {gen : Gen Code} {code : Code}
    (h : asStatement n gen s = .ok code s') :
    (gen s = .ok code s' ∧ s'.depth = s.depth) ∨
      ∃ code₁ s₁, gen s = .ok code₁ s₁ ∧ s₁.depth = s.depth + 1 ∧
        code = code₁ ++ [op .pop [.register .rax]] ∧ s' = { s₁ with depth := s.depth } := by
  obtain ⟨_, _, hget, h⟩ := bind_ok h
  cases hget
  obtain ⟨code', s₁, hgen, h⟩ := bind_ok h
  obtain ⟨_, _, hget, h⟩ := bind_ok h
  cases hget
  dsimp only at h
  split at h
  · next hdepth =>
    cases h
    exact .inl ⟨hgen, hdepth⟩
  · split at h
    · next hdepth =>
      obtain ⟨popped, s₂, hpop, h⟩ := bind_ok h
      cases h
      obtain ⟨rfl, -, rfl⟩ := pop_ok hpop
      refine .inr ⟨code', s₁, hgen, hdepth, rfl, ?_⟩
      rw [hdepth, Nat.add_sub_cancel]
    · cases h

theorem branchIfZero_ok {e : Node} {gen : Gen Code} {label : Text} {code : Code}
    (h : branchIfZero e gen label s = .ok code s') :
    ∃ code₁ s₁, gen s = .ok code₁ s₁ ∧ s₁.depth = s.depth + 1 ∧
      code = code₁ ++ [op .pop [.register .rax]] ++
        [op .cmp [.register .rax, .immediate 0], op (.jumpIf .e) [.target label]] ∧
      s' = { s₁ with depth := s.depth } := by
  obtain ⟨code₁, s₁, hvalue, h⟩ := bind_ok h
  obtain ⟨popped, s₂, hpop, h⟩ := bind_ok h
  cases h
  obtain ⟨hgen, hdepth⟩ := asValue_ok hvalue
  obtain ⟨rfl, -, rfl⟩ := pop_ok hpop
  refine ⟨code₁, s₁, hgen, hdepth, rfl, ?_⟩
  rw [hdepth, Nat.add_sub_cancel]

theorem slot_ok {x : Text} {k : Nat} (h : slot x s = .ok k s') :
    k = s'.frame.names.idxOf x ∧ s.frame.Grows s'.frame [x] ∧ s'.depth = s.depth ∧
      s'.branches = s.branches := by
  obtain ⟨_, _, hget, h⟩ := bind_ok h
  cases hget
  dsimp only at h
  cases hlookup : s.frame.lookup? x with
  | none =>
    rw [hlookup] at h
    cases h
  | some found =>
    obtain ⟨slot, frame'⟩ := found
    obtain ⟨hslot, hgrows⟩ := Frame.lookup?_some hlookup
    rw [hlookup] at h
    dsimp only at h
    split at h
    · cases h
      exact ⟨hslot, hgrows, rfl, rfl⟩
    · next hlength =>
      cases h
      rw [Frame.lookup?_same hlookup hlength] at hslot hgrows
      exact ⟨hslot, hgrows, rfl, rfl⟩

theorem address_ok {x : Text} {code : Code} (h : address x s = .ok code s') :
    code = slotAddress (s'.frame.names.idxOf x) ∧ s.frame.Grows s'.frame [x] ∧
      s'.depth = s.depth ∧ s'.branches = s.branches := by
  obtain ⟨slot, s₁, hslot, h⟩ := bind_ok h
  cases h
  obtain ⟨rfl, hrest⟩ := slot_ok hslot
  exact ⟨rfl, hrest⟩

/-! ## Expressions -/

/-- From `s` to `s'` the generator has written the lines of a layout, for the slots of
every frame that the one of `s'` grows into. -/
structure Wrote (s s' : State) (code : Code) (layout : (Text → Nat) → List Site)
    (used : List Text) (count : Nat) : Prop where
  code : ∀ names, s'.frame.names <+: names → code = (layout names.idxOf).map Site.line
  grows : s.frame.Grows s'.frame used
  branches : s'.branches = s.branches + count

/-- A node that leaves a word is an expression. -/
theorem isExpression_of_node {stem : Text} {e : Node} {code : Code}
    (h : node stem e s = .ok code s') (hdepth : s'.depth = s.depth + 1) :
    e.isExpression = true := by
  have hleaves := ((settles_node stem e s).of_ok h).2.depth
  cases he : e.isExpression with
  | true => rfl
  | false =>
    rw [e.values_of_statement he] at hleaves
    omega

theorem asValue_node {stem : Text} {e : Node} {code : Code}
    (h : asValue e (node stem e) s = .ok code s') :
    e.isExpression = true ∧ node stem e s = .ok code s' := by
  obtain ⟨hcode, hdepth⟩ := asValue_ok h
  exact ⟨isExpression_of_node hcode hdepth, hcode⟩

theorem node_value {stem : Text} (e : Node) (he : e.isExpression = true) {s s' : State}
    {code : Code} (h : node stem e s = .ok code s') :
    Wrote s s' code (valueSites · s.depth e) e.idents 0 ∧ s'.depth = s.depth + 1 := by
  match e with
  | .num value =>
    rw [node] at h
    by_cases hshort : isShort value = true
    · rw [if_pos hshort] at h
      cases h
      exact ⟨⟨fun _ _ => by simp [valueSites, hshort, map_line_plain], .refl _, rfl⟩, rfl⟩
    · rw [if_neg hshort] at h
      cases h
      exact ⟨⟨fun _ _ => by simp [valueSites, hshort, map_line_plain], .refl _, rfl⟩, rfl⟩
  | .ident name =>
    rw [node] at h
    obtain ⟨place, s₁, haddress, h⟩ := bind_ok h
    obtain ⟨pushed, s₂, hpush, h⟩ := bind_ok h
    cases hpush
    cases h
    obtain ⟨rfl, hgrows, hdepth, hbranches⟩ := address_ok haddress
    refine ⟨⟨fun names hnames => ?_, hgrows, hbranches⟩, congrArg (· + 1) hdepth⟩
    have hslot := Frame.idxOf_of_prefix hnames (hgrows.holds name List.mem_cons_self)
    simp [valueSites, map_line_plain, hslot]
  | .binary operator left right =>
    by_cases hassign : operator = .assign
    · subst hassign
      obtain ⟨name, rfl⟩ : ∃ name, left = .ident name := by
        cases left with
        | ident name => exact ⟨name, rfl⟩
        | _ => cases h
      rw [node] at h
      obtain ⟨place, s₁, haddress, h⟩ := bind_ok h
      obtain ⟨held, s₂, hpush, h⟩ := bind_ok h
      cases hpush
      obtain ⟨value, s₃, hvalue, h⟩ := bind_ok h
      obtain ⟨value', s₄, hpop, h⟩ := bind_ok h
      obtain ⟨held', s₅, hpop', h⟩ := bind_ok h
      obtain ⟨pushed, s₆, hpush, h⟩ := bind_ok h
      cases hpush
      cases h
      obtain ⟨rfl, hgrows, hdepth, hbranches⟩ := address_ok haddress
      obtain ⟨hright, hvalue⟩ := asValue_node hvalue
      obtain ⟨hwrote, hdepth₃⟩ := node_value right hright hvalue
      obtain ⟨rfl, -, rfl⟩ := pop_ok hpop
      obtain ⟨rfl, -, rfl⟩ := pop_ok hpop'
      refine ⟨⟨fun names hnames => ?_, hgrows.trans hwrote.grows, ?_⟩, ?_⟩
      · have hslot := Frame.idxOf_of_prefix (hwrote.grows.names.trans hnames)
          (hgrows.holds name List.mem_cons_self)
        rw [hwrote.code names hnames]
        simp [valueSites, map_line_plain, hslot, hdepth]
      · exact hwrote.branches.trans hbranches
      · change s₃.depth - 1 - 1 + 1 = s.depth + 1
        change s₃.depth = s₁.depth + 1 + 1 at hdepth₃
        omega
    · rw [node_binary hassign] at h
      obtain ⟨leftCode, s₁, hleftValue, h⟩ := bind_ok h
      obtain ⟨rightCode, s₂, hrightValue, h⟩ := bind_ok h
      obtain ⟨right', s₃, hpop, h⟩ := bind_ok h
      obtain ⟨left', s₄, hpop', h⟩ := bind_ok h
      cases hoperation : operation? operator with
      | none =>
        rw [hoperation] at h
        cases h
      | some code =>
        rw [hoperation] at h
        obtain ⟨pushed, s₅, hpush, h⟩ := bind_ok h
        cases hpush
        cases h
        obtain ⟨hleft, hleftValue⟩ := asValue_node hleftValue
        obtain ⟨hright, hrightValue⟩ := asValue_node hrightValue
        obtain ⟨hwrote, hdepth₁⟩ := node_value left hleft hleftValue
        obtain ⟨hwrote', hdepth₂⟩ := node_value right hright hrightValue
        obtain ⟨rfl, -, rfl⟩ := pop_ok hpop
        obtain ⟨rfl, -, rfl⟩ := pop_ok hpop'
        refine ⟨⟨fun names hnames => ?_, hwrote.grows.trans hwrote'.grows, ?_⟩, ?_⟩
        · rw [hwrote.code names (hwrote'.grows.names.trans hnames), hwrote'.code names hnames]
          simp [valueSites_binary _ hassign, map_line_plain, hoperation, hdepth₁]
        · exact hwrote'.branches.trans hwrote.branches
        · change s₂.depth - 1 - 1 + 1 = s.depth + 1
          omega

/-! ## Statements -/

namespace Wrote

variable {s₁ : State} {code code' : Code} {layout layout' : (Text → Nat) → List Site}
  {used used' : List Text} {count count' : Nat}

theorem append (h : Wrote s s₁ code layout used count)
    (h' : Wrote s₁ s' code' layout' used' count') :
    Wrote s s' (code ++ code') (fun slot => layout slot ++ layout' slot) (used ++ used')
      (count + count') where
  code names hnames := by
    rw [h.code names (h'.grows.names.trans hnames), h'.code names hnames, List.map_append]
  grows := h.grows.trans h'.grows
  branches := by rw [h'.branches, h.branches, Nat.add_assoc]

/-- Lines that do not come from a part of the tree. -/
theorem lines (s : State) (depth : Nat) (code : Code) :
    Wrote s s code (fun _ => plain depth code) [] 0 :=
  ⟨fun _ _ => (map_line_plain depth code).symm, .refl _, rfl⟩

/-- A change of the count of words writes nothing. -/
theorem depth (h : Wrote s s₁ code layout used count) (d : Nat) :
    Wrote s { s₁ with depth := d } code layout used count :=
  ⟨h.code, h.grows, h.branches⟩

/-- Layouts are compared by their lines. -/
theorem congr (h : Wrote s s' code layout used count)
    (hlayout : ∀ slot, (layout slot).map Site.line = (layout' slot).map Site.line)
    (hused : used = used') (hcount : count = count') :
    Wrote s s' code layout' used' count' := by
  subst hused hcount
  exact ⟨fun names hnames => (h.code names hnames).trans (hlayout _), h.grows, h.branches⟩

end Wrote

theorem nextBranch_ok {stem : Text} {branch : Branch} (h : nextBranch stem s = .ok branch s') :
    branch = .numbered stem s.branches ∧ s'.depth = s.depth ∧
      Wrote s s' [] (fun _ => []) [] 1 := by
  cases h
  exact ⟨rfl, rfl, fun _ _ => rfl, .refl _, rfl⟩

theorem branchIfZero_wrote {stem label : Text} {test : Node} {code : Code} (hdepth : s.depth = 0)
    (h : branchIfZero test (node stem test) label s = .ok code s') :
    Wrote s s' code (testSites · label (some test)) test.idents 0 ∧ s'.depth = 0 := by
  obtain ⟨code₁, s₁, hgen, hdepth₁, rfl, rfl⟩ := branchIfZero_ok h
  have hwrote := (node_value test (isExpression_of_node hgen hdepth₁) hgen).1
  have htail := Wrote.lines s₁ 0 ([op .pop [.register .rax]] ++
    [op .cmp [.register .rax, .immediate 0], op (.jumpIf .e) [.target label]])
  rw [hdepth] at hwrote ⊢
  rw [List.append_assoc]
  refine ⟨((hwrote.append htail).depth 0).congr (fun slot => ?_) (List.append_nil _) rfl, rfl⟩
  simp [testSites, takenSites, map_line_plain]

/-- A node that leaves no value is a statement as it is. -/
theorem wrote_of_node {n : Node} {gen : Gen Code} {code : Code}
    {layout : (Text → Nat) → List Site} {used : List Text} {count : Nat} (hdepth : s.depth = 0)
    (hgen : ∀ {code s'}, gen s = .ok code s' → Wrote s s' code layout used count ∧ s'.depth = 0)
    (h : asStatement n gen s = .ok code s') : Wrote s s' code layout used count ∧ s'.depth = 0 := by
  obtain ⟨hcode, -⟩ | ⟨code₁, s₁, hcode, hdepth₁, -, -⟩ := asStatement_ok h
  · exact hgen hcode
  · have hdepth₁' := (hgen hcode).2
    omega

theorem wrote_of_value {stem : Text} {e : Node} {code : Code} (he : e.isExpression = true)
    (hdepth : s.depth = 0) (h : asStatement e (node stem e) s = .ok code s') :
    Wrote s s' code (fun slot => opening (takenSites slot e)) e.idents 0 ∧ s'.depth = 0 := by
  obtain ⟨hcode, hdepth'⟩ | ⟨code₁, s₁, hcode, -, rfl, rfl⟩ := asStatement_ok h
  · have := (node_value e he hcode).2
    omega
  · have hwrote := (node_value e he hcode).1
    have htail := Wrote.lines s₁ 1 [op .pop [.register .rax]]
    rw [hdepth] at hwrote ⊢
    refine ⟨((hwrote.append htail).depth 0).congr (fun slot => ?_) (List.append_nil _) rfl, rfl⟩
    simp [takenSites, map_line_opening]

theorem optionalTest_wrote {stem label : Text} {test : Option Node} {code : Code}
    (hdepth : s.depth = 0) (h : optionalTest stem label test s = .ok code s') :
    Wrote s s' code (testSites · label test) (Node.identsOptional test) 0 ∧ s'.depth = 0 := by
  cases test with
  | none =>
    cases h
    exact ⟨Wrote.lines s 0 [], hdepth⟩
  | some test => exact branchIfZero_wrote hdepth h

mutual

theorem statement_wrote {stem : Text} (n : Node) {s s' : State} {code : Code}
    (hdepth : s.depth = 0) (h : asStatement n (node stem n) s = .ok code s') :
    Wrote s s' code (stmtSites stem · s.branches n) n.idents n.branches ∧ s'.depth = 0 := by
  match n with
  | .num value => exact wrote_of_value rfl hdepth h
  | .ident name => exact wrote_of_value rfl hdepth h
  | .binary operator left right => exact wrote_of_value rfl hdepth h
  | .ret value =>
    refine wrote_of_node hdepth (fun h => ?_) h
    rw [node] at h
    obtain ⟨valueCode, s₁, hvalue, h⟩ := bind_ok h
    obtain ⟨popped, s₂, hpop, h⟩ := bind_ok h
    cases h
    obtain ⟨hexpression, hvalue⟩ := asValue_node hvalue
    obtain ⟨hwrote, hdepth₁⟩ := node_value value hexpression hvalue
    obtain ⟨rfl, -, rfl⟩ := pop_ok hpop
    have htail := Wrote.lines s₁ 0 ([op .pop [.register .rax]] ++ epilogue)
    rw [hdepth] at hwrote hdepth₁
    rw [List.append_assoc, hdepth₁]
    refine ⟨((hwrote.append htail).depth 0).congr (fun slot => ?_) (List.append_nil _) rfl, rfl⟩
    simp [stmtSites, takenSites, map_line_opening, map_line_plain]
  | .cond test yes no =>
    refine wrote_of_node hdepth (fun h => ?_) h
    rw [node] at h
    obtain ⟨branch, s₁, hbranch, h⟩ := bind_ok h
    obtain ⟨testCode, s₂, htestCode, h⟩ := bind_ok h
    obtain ⟨yesCode, s₃, hyesCode, h⟩ := bind_ok h
    obtain ⟨noCode, s₄, hnoCode, h⟩ := bind_ok h
    cases h
    obtain ⟨rfl, hdepth₁, hbranch⟩ := nextBranch_ok hbranch
    obtain ⟨htest, hdepth₂⟩ := branchIfZero_wrote (hdepth₁.trans hdepth) htestCode
    obtain ⟨hyes, hdepth₃⟩ := statement_wrote yes hdepth₂ hyesCode
    obtain ⟨hno, hdepth₄⟩ := clause_wrote no hdepth₃ hnoCode
    have hb₂ : s₂.branches = s.branches + 1 := htest.branches.trans hbranch.branches
    have hb₃ : s₃.branches = s.branches + 1 + yes.branches := by rw [hyes.branches, hb₂]
    rw [hb₂] at hyes
    rw [hb₃] at hno
    refine ⟨Wrote.congr (((((hbranch.append htest).append hyes).append (Wrote.lines s₃ 0 _)).append
      hno).append (Wrote.lines _ 0 _)) (fun slot => ?_) ?_ ?_, hdepth₄⟩
    · simp [stmtSites, condSites, map_line_opening]
    · simp [Node.idents]
    · simp [Node.branches]
  | .loop test body =>
    refine wrote_of_node hdepth (fun h => ?_) h
    rw [node] at h
    obtain ⟨branch, s₁, hbranch, h⟩ := bind_ok h
    obtain ⟨testCode, s₂, htestCode, h⟩ := bind_ok h
    obtain ⟨bodyCode, s₃, hbodyCode, h⟩ := bind_ok h
    cases h
    obtain ⟨rfl, hdepth₁, hbranch⟩ := nextBranch_ok hbranch
    obtain ⟨htest, hdepth₂⟩ := branchIfZero_wrote (hdepth₁.trans hdepth) htestCode
    obtain ⟨hbody, hdepth₃⟩ := statement_wrote body hdepth₂ hbodyCode
    have hb₂ : s₂.branches = s.branches + 1 := htest.branches.trans hbranch.branches
    rw [hb₂] at hbody
    refine ⟨Wrote.congr ((((hbranch.append (Wrote.lines s₁ 0 _)).append htest).append hbody).append
      (Wrote.lines _ 0 _)) (fun slot => ?_) ?_ ?_, hdepth₃⟩
    · simp [stmtSites, loopSites, map_line_opening]
    · simp [Node.idents]
    · simp [Node.branches]
  | .iter init test step body =>
    refine wrote_of_node hdepth (fun h => ?_) h
    rw [node_iter] at h
    obtain ⟨branch, s₁, hbranch, h⟩ := bind_ok h
    obtain ⟨initCode, s₂, hinitCode, h⟩ := bind_ok h
    obtain ⟨testCode, s₃, htestCode, h⟩ := bind_ok h
    obtain ⟨bodyCode, s₄, hbodyCode, h⟩ := bind_ok h
    obtain ⟨stepCode, s₅, hstepCode, h⟩ := bind_ok h
    cases h
    obtain ⟨rfl, hdepth₁, hbranch⟩ := nextBranch_ok hbranch
    obtain ⟨hinit, hdepth₂⟩ := clause_wrote init (hdepth₁.trans hdepth) hinitCode
    obtain ⟨htest, hdepth₃⟩ := optionalTest_wrote hdepth₂ htestCode
    obtain ⟨hbody, hdepth₄⟩ := statement_wrote body hdepth₃ hbodyCode
    obtain ⟨hstep, hdepth₅⟩ := clause_wrote step hdepth₄ hstepCode
    have hb₁ : s₁.branches = s.branches + 1 := hbranch.branches
    have hb₃ : s₃.branches = s.branches + 1 + Node.branchesOptional init := by
      rw [htest.branches, Nat.add_zero, hinit.branches, hb₁]
    have hb₄ : s₄.branches = s.branches + 1 + Node.branchesOptional init + body.branches := by
      rw [hbody.branches, hb₃]
    rw [hb₁] at hinit
    rw [hb₃] at hbody
    rw [hb₄] at hstep
    refine ⟨Wrote.congr ((((((hbranch.append hinit).append (Wrote.lines s₂ 0 _)).append
      htest).append hbody).append hstep).append (Wrote.lines _ 0 _)) (fun slot => ?_) ?_ ?_,
      hdepth₅⟩
    · simp [stmtSites, loopSites, map_line_opening]
    · simp [Node.idents]
    · simp [Node.branches]
  | .block body =>
    refine wrote_of_node hdepth (fun h => ?_) h
    rw [node] at h
    obtain ⟨hwrote, hdepth'⟩ := statements_wrote body hdepth h
    refine ⟨hwrote.congr (fun slot => ?_) rfl rfl, hdepth'⟩
    rw [stmtSites, map_line_opening]

theorem clause_wrote {stem : Text} (o : Option Node) {s s' : State} {code : Code}
    (hdepth : s.depth = 0) (h : clause stem o s = .ok code s') :
    Wrote s s' code (optionalSites stem · s.branches o) (Node.identsOptional o)
      (Node.branchesOptional o) ∧ s'.depth = 0 := by
  match o with
  | none =>
    rw [clause] at h
    cases h
    exact ⟨Wrote.lines s 0 [], hdepth⟩
  | some n =>
    rw [clause] at h
    exact statement_wrote n hdepth h

theorem statements_wrote {stem : Text} (ns : List Node) {s s' : State} {code : Code}
    (hdepth : s.depth = 0) (h : statements stem ns s = .ok code s') :
    Wrote s s' code (allSites stem · s.branches ns) (Node.identsAll ns) (Node.branchesAll ns) ∧
      s'.depth = 0 := by
  match ns with
  | [] =>
    rw [statements] at h
    cases h
    exact ⟨Wrote.lines s 0 [], hdepth⟩
  | n :: ns =>
    rw [statements] at h
    obtain ⟨first, s₁, hfirst, h⟩ := bind_ok h
    obtain ⟨others, s₂, hothers, h⟩ := bind_ok h
    cases h
    obtain ⟨hfirst, hdepth₁⟩ := statement_wrote n hdepth hfirst
    obtain ⟨hothers, hdepth₂⟩ := statements_wrote ns hdepth₁ hothers
    rw [hfirst.branches] at hothers
    exact ⟨hfirst.append hothers, hdepth₂⟩

end

/-! ## Programs -/

theorem body_wrote {settings : Settings} {p : Program} {s s' : State} {code : Code}
    (hdepth : s.depth = 0) (h : body settings p s = .ok code s') :
    Wrote s s' code (programSites settings · s.branches p) (Node.identsAll p)
      (Node.branchesAll p) := by
  induction p generalizing s code with
  | nil =>
    cases h
    exact Wrote.lines _ 0 []
  | cons n ns ih =>
    obtain ⟨first, s₁, hfirst, h⟩ := bind_ok h
    obtain ⟨others, s₂, hothers, h⟩ := bind_ok h
    cases h
    obtain ⟨hfirst, hdepth₁⟩ := statement_wrote n hdepth hfirst
    have hothers := ih hdepth₁ hothers
    rw [hfirst.branches] at hothers
    refine ((Wrote.lines _ 0 (if settings.comments then [announcement n] else [])).append
      hfirst |>.append hothers).congr (fun slot => ?_) rfl ?_
    · simp only [programSites]
      split <;> rfl
    · rw [Nat.zero_add, Node.branchesAll]

/-- The finished function: the prologue, the layout under the slots of the finished frame
and the epilogue. -/
theorem run_ok {settings : Settings} {p : Program} {code : Code} (h : run settings p = .ok code s) :
    code = prologue settings.entrySymbol s.frame ++
        (bodySites settings s.frame.names.idxOf p).map Site.line ++ epilogue ∧
      (Frame.empty settings.frameSlots).Grows s.frame (Node.identsAll p) := by
  obtain ⟨bodyCode, s₁, hbody, h⟩ := bind_ok h
  have hwrote := body_wrote rfl hbody
  obtain ⟨_, _, hget, h⟩ := bind_ok h
  cases hget
  obtain ⟨_, s₂, hrecord, h⟩ := bind_ok h
  cases hrecord
  cases h
  refine ⟨?_, hwrote.grows⟩
  have hcode := hwrote.code s₁.frame.names List.prefix_rfl
  rw [bodySites]
  cases p with
  | nil => rfl
  | cons n ns =>
    simp only [List.isEmpty_cons, Bool.false_eq_true, if_false]
    rw [hcode]
    rfl

end Codegen
end WordC
