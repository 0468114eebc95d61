import Mathlib
import WordC.Proofs.Codegen.FrameSize
import WordC.Proofs.Codegen.Listing
import WordC.Proofs.Compile.Breach
/-!
The slots of the locals.

The generator looks names up in the order in which it walks through the tree, and a name
that the frame does not hold yet gets the next slot.  So the frame of a finished function
holds the distinct names of the program in the order of the walk.  A limit does not change
that order: it either leaves room for all of them, or stops the walk at the first name
that is one too many.
-/

namespace WordC

/-- The distinct names of a program in the order in which they are first met.  The target of
an assignment comes before its right side and other operands from left to right, conditions
come before branches, and a `for` is met as first clause, condition, body, last clause. -/
def Program.locals (p : Program) : List Text := (Node.identsAll p).eraseDups

namespace Frame

/-- The names of the frame after it has met the names of `used`. -/
def met (f : Frame) (used : List Text) : List Text :=
  f.names ++ (used.removeAll f.names).eraseDups

theorem met_nil (f : Frame) : f.met [] = f.names := by
  simp [met]

theorem met_known {f : Frame} {x : Text} (h : x ∈ f.names) : f.met [x] = f.names := by
  simp [met, List.removeAll, h]

theorem met_new {f : Frame} {x : Text} (h : x ∉ f.names) : f.met [x] = f.names ++ [x] := by
  simp [met, List.removeAll, List.eraseDups_cons, h]

theorem met_empty (capacity : Word) (used : List Text) :
    (empty capacity).met used = used.eraseDups := by
  simp [met, empty, List.removeAll]

/-- What the names of `used` add need not be added again. -/
theorem met_append {f f' : Frame} {used : List Text} (h : f'.names = f.met used)
    (more : List Text) : f'.met more = f.met (used ++ more) := by
  have hnew : more.removeAll (f.met used) =
      (more.removeAll f.names).removeAll (used.removeAll f.names) := by
    simp only [met, List.removeAll, List.filter_filter]
    refine List.filter_congr fun x _ => ?_
    by_cases hx : x ∈ f.names <;> simp [hx]
  have hsplit : (used ++ more).removeAll f.names =
      used.removeAll f.names ++ more.removeAll f.names :=
    List.filter_append _ _
  rw [met, h, hnew, met, met, hsplit, List.eraseDups_append, List.append_assoc]

theorem met_isPrefix (f : Frame) (used more : List Text) : f.met used <+: f.met (used ++ more) := by
  have h : (⟨f.capacity, f.met used⟩ : Frame).met more = f.met (used ++ more) := met_append rfl more
  rw [← h]
  exact List.prefix_append _ _

/-- The frame has met the names of `used`. -/
structure Meets (f f' : Frame) (used : List Text) : Prop where
  capacity : f'.capacity = f.capacity
  names : f'.names = f.met used
  sound : f.Sound → f'.Sound

namespace Meets

theorem refl (f : Frame) : Meets f f [] := ⟨rfl, f.met_nil.symm, id⟩

theorem trans {f f' f'' : Frame} {used more : List Text} (h : Meets f f' used)
    (h' : Meets f' f'' more) : Meets f f'' (used ++ more) where
  capacity := h'.capacity.trans h.capacity
  names := h'.names.trans (met_append h.names more)
  sound hf := h'.sound (h.sound hf)

end Meets

theorem lookup?_meets {f f' : Frame} {x : Text} {k : Nat} (h : f.lookup? x = some (k, f')) :
    f.Meets f' [x] := by
  have hgrows := (lookup?_some h).2
  refine ⟨hgrows.capacity, ?_, hgrows.sound⟩
  unfold lookup? at h
  split at h
  · next slot hslot =>
    have hmem : x ∈ f.names := List.isSome_idxOf?.1 (by rw [hslot]; rfl)
    rw [met_known hmem, (Prod.mk.inj (Option.some.inj h)).2]
  · next hslot =>
    have hmem : x ∉ f.names := List.idxOf?_eq_none_iff.1 hslot
    split at h
    · cases h
    · rw [met_new hmem, ← (Prod.mk.inj (Option.some.inj h)).2]

/-- A full frame holds as many names as it may, so the refused name would be the next. -/
theorem lookup?_refused {f : Frame} {x : Text} (hf : f.Sound) (h : f.lookup? x = none) :
    ∃ k : Nat, 0 < k ∧ f.capacity.toInt = k ∧ (f.met [x])[k]? = some x := by
  unfold lookup? at h
  split at h
  · cases h
  · next hslot =>
    split at h
    · next hfull =>
      have hmem : x ∉ f.names := List.idxOf?_eq_none_iff.1 hslot
      rw [isFull, Bool.and_eq_true, decide_eq_true_eq, decide_eq_true_eq] at hfull
      have hpos := Int64.lt_iff_toInt_lt.1 hfull.1
      have hle := hf.2 hfull.1
      have hlength : f.capacity.toInt = f.names.length := Int.le_antisymm hfull.2 hle
      refine ⟨f.names.length, ?_, hlength, ?_⟩
      · rw [hlength] at hpos
        exact Int.ofNat_lt.1 hpos
      · simp [met_new hmem]
    · cases h

theorem lookup?_getElem {f : Frame} (hf : f.names.Nodup) {i : Nat} (h : i < f.names.length) :
    f.lookup? f.names[i] = some (i, f) := by
  have hindex : f.names.idxOf? f.names[i] = some i := by
    refine List.idxOf?_eq_some_iff.2 ⟨h, rfl, fun j hj heq => ?_⟩
    have := hf.getElem_inj_iff.1 heq
    omega
  rw [lookup?, hindex]

end Frame

namespace Codegen

open Asm

/-! ## The names that a generator meets -/

/-- Generation stops because the frame has no slot for a name of `used`, the one at the place
of the limit, or for a fault of the tree. -/
inductive Overflows (f : Frame) (used : List Text) : Failure → Prop
  | exhausted {name : Text} {k : Nat} (hpos : 0 < k) (hk : f.capacity.toInt = k)
      (h : (f.met used)[k]? = some name) : Overflows f used (.exhausted name f.capacity)
  | breach (b : Breach) : Overflows f used (.breach b)

namespace Overflows

variable {f f' : Frame} {used : List Text} {e : Failure}

theorem mono (h : Overflows f used e) (more : List Text) : Overflows f (used ++ more) e := by
  cases h with
  | exhausted hpos hk h =>
    obtain ⟨rest, hrest⟩ := f.met_isPrefix used more
    refine .exhausted hpos hk ?_
    rw [← hrest, List.getElem?_append_left (List.getElem?_eq_some_iff.1 h).1, h]
  | breach b => exact .breach b

theorem after {more : List Text} (hmeets : f.Meets f' used) (h : Overflows f' more e) :
    Overflows f (used ++ more) e := by
  cases h with
  | exhausted hpos hk h =>
    rw [hmeets.capacity] at hk ⊢
    rw [Frame.met_append hmeets.names] at h
    exact .exhausted hpos hk h
  | breach b => exact .breach b

end Overflows

/-- The generator meets the names of `used`, in this order. -/
def Collects {α : Type} (gen : Gen α) (used : List Text) : Prop :=
  ∀ s, s.frame.Sound →
    Ends gen s (fun _ s' => s.frame.Meets s'.frame used) (Overflows s.frame used)

namespace Collects

variable {α β : Type} {used more : List Text}

theorem pure (a : α) : Collects (pure a) [] := fun s _ => .refl s.frame

theorem throw (b : Breach) (used : List Text) : Collects (throw (.breach b) : Gen α) used :=
  fun _ _ => .breach b

theorem bind {x : Gen α} {f : α → Gen β} (hx : Collects x used)
    (hf : ∀ a, Collects (f a) more) : Collects (x >>= f) (used ++ more) := by
  intro s hs
  refine Ends.bind ((hx s hs).mono (fun _ _ h => h) fun _ h => h.mono more) fun a s₁ h₁ => ?_
  exact (hf a s₁ (h₁.sound hs)).mono (fun _ _ h => h₁.trans h) fun _ h => h.after h₁

/-- What follows meets no name. -/
theorem bind_quiet {x : Gen α} {f : α → Gen β} (hx : Collects x used)
    (hf : ∀ a, Collects (f a) []) : Collects (x >>= f) used := by
  have h := hx.bind hf
  rwa [List.append_nil] at h

theorem get {f : State → Gen β} (h : ∀ s, Collects (f s) used) :
    Collects (MonadState.get >>= f) used :=
  fun s hs => h s s hs

theorem ite {c : Prop} [Decidable c] {x y : Gen α} (hx : Collects x used) (hy : Collects y used) :
    Collects (if c then x else y) used := by
  by_cases hc : c
  · rwa [if_pos hc]
  · rwa [if_neg hc]

theorem record (e : Event) : Collects (record e) [] := fun s _ => .refl s.frame

theorem push (operand : Operand) : Collects (push operand) [] := fun s _ => .refl s.frame

theorem pop (r : Register) : Collects (pop r) [] := by
  refine get fun _ => ite ((throw (.emptyStack r) []).bind fun _ => ?_) ?_
  · exact fun s _ => .refl s.frame
  · exact fun s _ => .refl s.frame

theorem nextBranch (stem : Text) : Collects (nextBranch stem) [] := fun s _ => .refl s.frame

theorem slot (name : Text) : Collects (slot name) [name] := by
  intro s hs
  refine .get ?_
  dsimp only
  cases hlookup : s.frame.lookup? name with
  | none =>
    obtain ⟨k, hpos, hk, hname⟩ := Frame.lookup?_refused hs hlookup
    exact .exhausted hpos hk hname
  | some found =>
    have hmeets := Frame.lookup?_meets hlookup
    dsimp only
    split
    · exact hmeets
    · next hlength =>
      rw [Frame.lookup?_same hlookup hlength] at hmeets
      exact hmeets

theorem address (name : Text) : Collects (address name) [name] :=
  (slot name).bind_quiet fun _ => pure _

theorem asValue {gen : Gen Code} (e : Node) (h : Collects gen used) :
    Collects (asValue e gen) used := by
  refine get fun s => h.bind_quiet fun code => get fun t => ite ?_ (pure code)
  exact (throw (.notAValue e (t.depth - s.depth)) []).bind fun _ => pure code

theorem asStatement {gen : Gen Code} (stmt : Node) (h : Collects gen used) :
    Collects (asStatement stmt gen) used := by
  refine get fun s => h.bind_quiet fun code => get fun t => ite (pure code) (ite ?_ ?_)
  · exact (pop .rax).bind fun _ => pure _
  · exact throw (.leftOver stmt (t.depth - s.depth)) []

theorem branchIfZero {gen : Gen Code} (test : Node) (label : Text) (h : Collects gen used) :
    Collects (branchIfZero test gen label) used :=
  (asValue test h).bind_quiet fun _ => (pop .rax).bind fun _ => pure _

end Collects

/-! ## Nodes -/

section Nodes

variable (stem : Text)

mutual

theorem collects_node (n : Node) : Collects (node stem n) n.idents := by
  match n with
  | .num value =>
    rw [node, Node.idents]
    exact .ite (.push _) ((Collects.push _).bind fun _ => .pure _)
  | .ident name =>
    rw [node, Node.idents]
    exact (Collects.address name).bind_quiet fun _ => (Collects.push _).bind fun _ => .pure _
  | .binary operator left right =>
    rw [Node.idents]
    by_cases hassign : operator = .assign
    · subst hassign
      cases htarget : left.isIdent with
      | false =>
        rw [node_assign_of_not_ident stem htarget]
        exact .throw (.notATarget left) _
      | true =>
        obtain ⟨name, rfl⟩ := Node.exists_of_isIdent htarget
        rw [node, Node.idents]
        refine (Collects.address name).bind fun _ => ?_
        refine (Collects.push _).bind fun _ => ?_
        refine ((collects_node right).asValue right).bind_quiet fun _ => ?_
        refine (Collects.pop _).bind fun _ => (Collects.pop _).bind fun _ => ?_
        exact (Collects.push _).bind fun _ => .pure _
    · rw [node_binary hassign]
      refine ((collects_node left).asValue left).bind fun _ => ?_
      refine ((collects_node right).asValue right).bind_quiet fun _ => ?_
      refine (Collects.pop _).bind fun _ => (Collects.pop _).bind fun _ => ?_
      cases operation? operator with
      | none => exact .throw (.unknownOperator operator) []
      | some code => exact (Collects.push _).bind fun _ => .pure _
  | .ret value =>
    rw [node, Node.idents]
    refine ((collects_node value).asValue value).bind_quiet fun _ => ?_
    exact (Collects.pop _).bind fun _ => .pure _
  | .cond test yes no =>
    rw [node, Node.idents, List.append_assoc]
    refine (Collects.nextBranch stem).bind fun branch => ?_
    refine ((collects_node test).branchIfZero test branch.otherwise).bind fun _ => ?_
    refine ((collects_node yes).asStatement yes).bind fun _ => ?_
    exact (collects_clause no).bind_quiet fun _ => .pure _
  | .loop test body =>
    rw [node, Node.idents]
    refine (Collects.nextBranch stem).bind fun branch => ?_
    refine ((collects_node test).branchIfZero test branch.finish).bind fun _ => ?_
    exact ((collects_node body).asStatement body).bind_quiet fun _ => .pure _
  | .iter init test step body =>
    rw [node_iter, Node.idents, List.append_assoc, List.append_assoc]
    refine (Collects.nextBranch stem).bind fun branch => ?_
    refine (collects_clause init).bind fun _ => ?_
    have htest : Collects (optionalTest stem branch.finish test) (Node.identsOptional test) := by
      cases test with
      | none => exact .pure []
      | some test => exact (collects_node test).branchIfZero test branch.finish
    refine htest.bind fun _ => ((collects_node body).asStatement body).bind fun _ => ?_
    exact (collects_clause step).bind_quiet fun _ => .pure _
  | .block body =>
    rw [node, Node.idents]
    exact collects_statements body

theorem collects_clause (o : Option Node) : Collects (clause stem o) (Node.identsOptional o) := by
  match o with
  | none =>
    rw [clause, Node.identsOptional]
    exact .pure []
  | some stmt =>
    rw [clause, Node.identsOptional]
    exact (collects_node stmt).asStatement stmt

theorem collects_statements (ns : List Node) :
    Collects (statements stem ns) (Node.identsAll ns) := by
  match ns with
  | [] =>
    rw [statements, Node.identsAll]
    exact .pure []
  | stmt :: rest =>
    rw [statements, Node.identsAll]
    refine ((collects_node stmt).asStatement stmt).bind fun _ => ?_
    exact (collects_statements rest).bind_quiet fun _ => .pure _

end

end Nodes

/-! ## Programs -/

theorem collects_body (settings : Settings) (p : Program) :
    Collects (body settings p) (Node.identsAll p) := by
  induction p with
  | nil => exact .pure []
  | cons stmt rest ih =>
    rw [body, Node.identsAll]
    refine ((collects_node settings.labelStem stmt).asStatement stmt).bind fun _ => ?_
    exact ih.bind_quiet fun _ => .pure _

theorem collects_function (settings : Settings) (p : Program) :
    Collects (function settings p) (Node.identsAll p) :=
  (collects_body settings p).bind_quiet fun _ => .get fun _ =>
    (Collects.record _).bind fun _ => .pure _

section Runs

variable {settings : Settings} {p : Program} {s : State}

/-- The names of a finished frame are those of the program, in the order of the walk. -/
theorem names_of_run {lines : Code} (h : run settings p = .ok lines s) :
    s.frame.names = p.locals := by
  have hsound := Frame.sound_empty settings.frameSlots
  have hmeets := (collects_function settings p (.initial settings.frameSlots) hsound).of_ok h
  rw [hmeets.names]
  exact Frame.met_empty settings.frameSlots (Node.identsAll p)

theorem sound_of_run {lines : Code} (h : run settings p = .ok lines s) :
    s.frame.Sound ∧ s.frame.capacity = settings.frameSlots := by
  have hgrows := (run_ok h).2
  exact ⟨hgrows.sound (Frame.sound_empty settings.frameSlots), hgrows.capacity⟩

/-- The name that a frame has no slot for stands at the place of the limit. -/
theorem name_of_exhausted {name : Text} {capacity : Word}
    (h : run settings p = .error (.exhausted name capacity) s) :
    ∃ k : Nat, 0 < k ∧ settings.frameSlots.toInt = k ∧ p.locals[k]? = some name := by
  have hsound := Frame.sound_empty settings.frameSlots
  have hover := (collects_function settings p (.initial settings.frameSlots) hsound).of_error h
  generalize hf : Failure.exhausted name capacity = f at hover
  cases hover with
  | exhausted hpos hk hname =>
    cases hf
    refine ⟨_, hpos, hk, ?_⟩
    rw [← hname]
    exact congrArg (·[_]?) (Frame.met_empty settings.frameSlots (Node.identsAll p)).symm
  | breach b => cases hf

end Runs
end Codegen

/-- So many slots do for the program; zero stands for no limit. -/
def Program.FitsIn (p : Program) (slots : Word) : Prop :=
  slots = 0 ∨ (p.locals.length : Int) ≤ slots.toInt

namespace Codegen

open Asm

section Limits

variable {settings : Settings} {p : Program} (hwell : ¬ p.IllFormed)

include hwell

theorem run_of_fitsIn (h : p.FitsIn settings.frameSlots) :
    ∃ lines s, run settings p = .ok lines s := by
  cases hrun : run settings p with
  | ok lines s => exact ⟨lines, s, rfl⟩
  | error f s =>
    obtain ⟨name, rfl⟩ := (run_refused hrun).exhausted_of_not hwell
    obtain ⟨k, hpos, hk, hname⟩ := name_of_exhausted hrun
    have hlt := (List.getElem?_eq_some_iff.1 hname).1
    rcases h with h | h
    · rw [h] at hk
      change (0 : Int) = k at hk
      omega
    · omega

theorem run_of_not_fitsIn {k : Nat} (hpos : 0 < k) (hk : settings.frameSlots.toInt = k)
    (h : k < p.locals.length) :
    ∃ s, run settings p = .error (.exhausted p.locals[k] settings.frameSlots) s := by
  cases hrun : run settings p with
  | ok lines s =>
    -- A finished frame would hold more names than its limit.
    obtain ⟨hsound, hcapacity⟩ := sound_of_run hrun
    have hlimit : (0 : Word) < s.frame.capacity := by
      rw [hcapacity, Int64.lt_iff_toInt_lt, hk]
      exact Int.ofNat_lt.2 hpos
    have hle := hsound.2 hlimit
    rw [names_of_run hrun, hcapacity, hk] at hle
    omega
  | error f s =>
    obtain ⟨name, rfl⟩ := (run_refused hrun).exhausted_of_not hwell
    obtain ⟨k', -, hk', hname⟩ := name_of_exhausted hrun
    obtain rfl : k' = k := by omega
    rw [(List.getElem?_eq_some_iff.1 hname).2]
    exact ⟨s, rfl⟩

end Limits

/-! ## The text under other limits -/

theorem problem?_frameSlots {settings : Settings} (h : settings.problem? = none) {slots : Word}
    (hslots : 0 ≤ slots.toInt) : { settings with frameSlots := slots }.problem? = none := by
  have hnonneg : ¬ slots < 0 := by
    rw [Int64.lt_iff_toInt_lt]
    exact Int.not_lt.2 hslots
  unfold Settings.problem? at h ⊢
  split at h
  · cases h
  · rw [if_neg hnonneg]
    exact h

theorem programSites_frameSlots (settings : Settings) (slots : Word) (slot : Text → Nat) (b : Nat)
    (p : Program) :
    programSites { settings with frameSlots := slots } slot b p =
      programSites settings slot b p := by
  induction p generalizing b with
  | nil => rfl
  | cons n rest ih => rw [programSites, programSites, ih]

theorem bodySites_frameSlots (settings : Settings) (slots : Word) (slot : Text → Nat)
    (p : Program) :
    bodySites { settings with frameSlots := slots } slot p = bodySites settings slot p := by
  rw [bodySites, bodySites, programSites_frameSlots]

/-- The code of a finished function, apart from the line that reserves the frame, depends on
the names of the program and not on the limit. -/
theorem lines_of_run {settings : Settings} {p : Program} {lines : Code} {s : State}
    (h : run settings p = .ok lines s) :
    ∃ reserve : Code,
      (reserve = [] ∨ ∃ n, reserve = [op (.arith .sub) [.register .rsp, .immediate n]]) ∧
      lines = [.intelNotation, .global settings.entrySymbol, .label settings.entrySymbol,
        op .push [.register .rbp], op .mov [.register .rbp, .register .rsp]] ++ reserve ++
        ((bodySites settings p.locals.idxOf p).map Site.line ++ epilogue) := by
  have hlines := (run_ok h).1
  rw [names_of_run h, prologue, List.append_assoc] at hlines
  refine ⟨_, ?_, hlines⟩
  by_cases hsize : 0 < s.frame.size
  · rw [if_pos hsize]
    exact .inr ⟨s.frame.size, rfl⟩
  · rw [if_neg hsize]
    exact .inl rfl

end Codegen

theorem Program.FitsIn.nonneg {p : Program} {slots : Word} (h : p.FitsIn slots) :
    0 ≤ slots.toInt := by
  rcases h with rfl | h
  · exact Int.le_refl 0
  · omega

open Codegen Asm

/-- Slots are given in the order of first meeting.  A frame without a limit, or with room for
the names of a source, is finished with those names and no others, the `i`-th in slot `i`;
and what is written for two such frames differs at most in the line that reserves the frame.
A limit of `k` slots with more than `k` names stops at the name that would be the next. -/
theorem slots_by_first_meeting {source : Text} {p : Program} {settings : Settings}
    (hparse : Program.parse source = .ok p) (hproblem : settings.withDefaults.problem? = none) :
    (p.FitsIn settings.frameSlots →
      ∃ lines s, run settings.withDefaults p = .ok lines s ∧
        p.generate settings = .ok (render lines) ∧ s.frame.names = p.locals ∧
        ∀ i (h : i < p.locals.length), s.frame.lookup? p.locals[i] = some (i, s.frame)) ∧
    (∃ rest : Code, ∀ slots, p.FitsIn slots →
      ∃ reserve : Code,
        (reserve = [] ∨ ∃ n, reserve = [op (.arith .sub) [.register .rsp, .immediate n]]) ∧
        p.generate { settings with frameSlots := slots } =
          .ok (render ([.intelNotation, .global settings.withDefaults.entrySymbol,
            .label settings.withDefaults.entrySymbol, op .push [.register .rbp],
            op .mov [.register .rbp, .register .rsp]] ++ reserve ++ rest))) ∧
    ∀ k : Nat, 0 < k → settings.frameSlots.toInt = k → ∀ h : k < p.locals.length,
      p.generate settings = .error (.failed (.exhausted p.locals[k] settings.frameSlots)) := by
  have hwell := not_illFormed_of_parse hparse
  refine ⟨fun hfits => ?_, ?_, fun k hpos hk h => ?_⟩
  · -- Completing the settings leaves the slots as they are.
    have hfits' : p.FitsIn settings.withDefaults.frameSlots := hfits
    obtain ⟨lines, s, hrun⟩ := run_of_fitsIn hwell hfits'
    have hnames := names_of_run hrun
    refine ⟨lines, s, hrun, generate_of_run hproblem hrun, hnames, fun i h => ?_⟩
    have hnodup := (sound_of_run hrun).1.1
    simp only [← hnames] at h ⊢
    exact Frame.lookup?_getElem hnodup h
  · refine ⟨(bodySites settings.withDefaults p.locals.idxOf p).map Site.line ++ epilogue, ?_⟩
    intro slots hfits
    have hproblem' := problem?_frameSlots hproblem hfits.nonneg
    have hfits' : p.FitsIn { settings.withDefaults with frameSlots := slots }.frameSlots := hfits
    obtain ⟨lines, s, hrun⟩ := run_of_fitsIn hwell hfits'
    obtain ⟨reserve, hreserve, hlines⟩ := lines_of_run hrun
    rw [bodySites_frameSlots] at hlines
    refine ⟨reserve, hreserve, ?_⟩
    rw [← hlines]
    exact generate_of_run hproblem' hrun
  · have hk' : settings.withDefaults.frameSlots.toInt = k := hk
    obtain ⟨s, hrun⟩ := run_of_not_fitsIn hwell hpos hk' h
    exact generate_of_failure hproblem hrun

/-- `for(i=0;i<n;s=s+i)k=1;t=s;` -/
def summing : Program :=
  [.iter (some (.binary .assign (.ident (utf8 "i")) (.num 0)))
    (some (.binary .less (.ident (utf8 "i")) (.ident (utf8 "n"))))
    (some (.binary .assign (.ident (utf8 "s"))
      (.binary .add (.ident (utf8 "s")) (.ident (utf8 "i")))))
    (.binary .assign (.ident (utf8 "k")) (.num 1)),
  .binary .assign (.ident (utf8 "t")) (.ident (utf8 "s"))]

/-- Five slots take 48 bytes, and those of `s` and `t` are the fourth and the fifth. -/
def summingCode : Text :=
  List.flatten
    [utf8 ".intel_syntax noprefix\n.globl main\nmain:\n  push rbp\n  mov rbp, rsp\n  sub rsp, 48\n",
    utf8 "  mov rax, rbp\n  sub rax, 8\n  push rax\n  push 0\n",
    utf8 "  pop rdi\n  pop rax\n  mov [rax], rdi\n  push rdi\n  pop rax\n",
    utf8 ".Lbegin0:\n  mov rax, rbp\n  sub rax, 8\n  mov rax, [rax]\n  push rax\n",
    utf8 "  mov rax, rbp\n  sub rax, 16\n  mov rax, [rax]\n  push rax\n",
    utf8 "  pop rdi\n  pop rax\n  cmp rax, rdi\n  setl al\n  movzx rax, al\n  push rax\n",
    utf8 "  pop rax\n  cmp rax, 0\n  je .Lend0\n",
    utf8 "  mov rax, rbp\n  sub rax, 24\n  push rax\n  push 1\n",
    utf8 "  pop rdi\n  pop rax\n  mov [rax], rdi\n  push rdi\n  pop rax\n",
    utf8 "  mov rax, rbp\n  sub rax, 32\n  push rax\n",
    utf8 "  mov rax, rbp\n  sub rax, 32\n  mov rax, [rax]\n  push rax\n",
    utf8 "  mov rax, rbp\n  sub rax, 8\n  mov rax, [rax]\n  push rax\n",
    utf8 "  pop rdi\n  pop rax\n  add rax, rdi\n  push rax\n",
    utf8 "  pop rdi\n  pop rax\n  mov [rax], rdi\n  push rdi\n  pop rax\n",
    utf8 "  jmp .Lbegin0\n.Lend0:\n  mov rax, rbp\n  sub rax, 40\n  push rax\n",
    utf8 "  mov rax, rbp\n  sub rax, 32\n  mov rax, [rax]\n  push rax\n",
    utf8 "  pop rdi\n  pop rax\n  mov [rax], rdi\n  push rdi\n  pop rax\n",
    utf8 "  mov rsp, rbp\n  pop rbp\n  ret\n"]

/-- The last clause of a `for` is met after its body, so `s` is one too many for three slots. -/
theorem summing_slots :
    Program.parse (utf8 "for(i=0;i<n;s=s+i)k=1;t=s;") = .ok summing ∧
      summing.locals = [utf8 "i", utf8 "n", utf8 "k", utf8 "s", utf8 "t"] ∧
      (∃ lines s, run { Settings.standard with frameSlots := 5 } summing = .ok lines s ∧
        s.frame.names = summing.locals ∧ render lines = summingCode) ∧
      summing.generate { Settings.standard with frameSlots := 3 } =
        .error (.failed (.exhausted (utf8 "s") 3)) := by
  have hparse : Program.parse (utf8 "for(i=0;i<n;s=s+i)k=1;t=s;") = .ok summing := by cbv
  have hlocals : summing.locals = [utf8 "i", utf8 "n", utf8 "k", utf8 "s", utf8 "t"] := by cbv
  refine ⟨hparse, hlocals, ?_, ?_⟩
  · have hproblem : { Settings.standard with frameSlots := 5 }.withDefaults.problem? = none := by
      decide
    have hfits : summing.FitsIn 5 := .inr (by rw [hlocals]; decide)
    obtain ⟨lines, s, hrun, hcode, hnames, -⟩ := (slots_by_first_meeting hparse hproblem).1 hfits
    have hgenerate : summing.generate { Settings.standard with frameSlots := 5 } =
        .ok summingCode := by
      set_option maxRecDepth 4000 in
      cbv
    exact ⟨lines, s, hrun, hnames, Except.ok.inj (hcode.symm.trans hgenerate)⟩
  · have hproblem : { Settings.standard with frameSlots := 3 }.withDefaults.problem? = none := by
      decide
    have hlength : 3 < summing.locals.length := by
      rw [hlocals]
      decide
    have hthird : summing.locals[3] = utf8 "s" := by simp only [hlocals]; rfl
    rw [(slots_by_first_meeting hparse hproblem).2.2 3 (by decide) (by decide) hlength, hthird]

end WordC
