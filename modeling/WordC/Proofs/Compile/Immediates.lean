import Mathlib
import WordC.Proofs.Compile.Breach
import WordC.Proofs.Compile.Reserve
/-!
Immediates that an instruction can encode.

Only a `mov` into a whole register takes an immediate of 64 bits.  Every other instruction
has 32 bits for it and extends their sign.  The generator loads literals that are too long
through a register, but it writes the size of the frame and the offsets of the slots as they
are.  So the code can be encoded exactly if these two stay below `2 ^ 31`, as they do for
less than `2 ^ 28 - 1` slots.
-/

namespace WordC
namespace Asm

/-- The word is the sign extension of 32 bits. -/
def IsEncodable (v : Word) : Prop := -2 ^ 31 ≤ v.toInt ∧ v.toInt ≤ 2 ^ 31 - 1

instance (v : Word) : Decidable (IsEncodable v) := inferInstanceAs (Decidable (_ ∧ _))

namespace Operand

def immediate? (o : Operand) : Option Word :=
  match o.form with
  | .immediate v => some v
  | _ => none

def isWide (o : Operand) : Bool :=
  match o.form with
  | .register r => Register.wide.contains r
  | _ => false

end Operand

/-- The immediates for which an instruction has 32 bits: all but the source of a `mov` into a
whole register. -/
def Instruction.shortImmediates (i : Instruction) : List Word :=
  match i.op, i.operands with
  | .mov, [target, source] =>
    if target.isWide then [] else [target, source].filterMap Operand.immediate?
  | _, operands => operands.filterMap Operand.immediate?

def Line.shortImmediates : Line → List Word
  | .instruction i => i.shortImmediates
  | _ => []

/-- All the lines have encodings. -/
def AllEncodable (lines : List Line) : Prop :=
  ∀ l ∈ lines, ∀ v ∈ l.shortImmediates, IsEncodable v

end Asm

namespace Codegen

open Asm

/-- The line that goes down from the frame base to a slot. -/
def slotLine (slot : Nat) : Line :=
  op (.arith .sub) [.register .rax, .immediate (Int64.ofNat (Frame.offset slot))]

/-! ## Every local is reached -/

/-- The sites reach for the slots of all these names. -/
def Places (slot : Text → Nat) (names : List Text) (sites : List Site) : Prop :=
  ∀ x ∈ names, slotLine (slot x) ∈ sites.map Site.line

section

variable {slot : Text → Nat} {names names' : List Text} {xs ys : List Site}

namespace Places

theorem nil : Places slot [] xs := nofun

theorem left (h : Places slot names xs) : Places slot names (xs ++ ys) := fun x hx => by
  rw [List.map_append]
  exact List.mem_append_left _ (h x hx)

theorem right (h : Places slot names ys) : Places slot names (xs ++ ys) := fun x hx => by
  rw [List.map_append]
  exact List.mem_append_right _ (h x hx)

theorem both (h : Places slot names xs) (h' : Places slot names' xs) :
    Places slot (names ++ names') xs :=
  List.forall_mem_append.2 ⟨h, h'⟩

theorem congr (h : Places slot names xs) (hnames : names = names') : Places slot names' xs :=
  hnames ▸ h

theorem opening (h : Places slot names xs) : Places slot names (opening xs) := by
  rw [Places, map_line_opening]
  exact h

theorem slotAddress (x : Text) (depth : Nat) (more : Code) :
    Places slot [x] (plain depth (slotAddress (slot x) ++ more)) := by
  rw [Places, map_line_plain]
  refine List.forall_mem_singleton.2 (List.mem_append_left _ ?_)
  exact List.mem_cons_of_mem _ List.mem_cons_self

end Places

theorem places_valueSites (depth : Nat) (e : Node) (he : e.isExpression = true)
    (hwell : ¬ e.IllFormed) : Places slot e.idents (valueSites slot depth e) := by
  fun_induction valueSites slot depth e with
  | case1 _ _ _ | case2 _ _ _ => exact .nil
  | case3 depth name => exact .slotAddress name depth _
  | case4 depth right name ih =>
    obtain ⟨-, hright⟩ := Node.binary_parts hwell
    exact .both (Places.slotAddress name depth _).left.left.left.left.left
      (ih hright.1 hright.2).right.left.left.left.left
  | case5 depth left right hleft =>
    refine absurd (.self (.target ?_)) hwell
    cases left with
    | ident name => exact absurd rfl (hleft name)
    | _ => rfl
  | case6 depth operator left right _ ihleft ihright =>
    obtain ⟨hleft, hright⟩ := Node.binary_parts hwell
    exact .both (ihleft hleft.1 hleft.2).left.left.left.left
      (ihright hright.1 hright.2).right.left.left.left
  | case7 e depth hnum hident hassign hbinary =>
    cases e with
    | num value => exact absurd rfl (hnum value)
    | ident name => exact absurd rfl (hident name)
    | binary operator left right => exact absurd rfl (hbinary operator left right)
    | _ => cases he

theorem places_takenSites {e : Node} (he : e.isExpression = true) (hwell : ¬ e.IllFormed) :
    Places slot e.idents (takenSites slot e) :=
  (places_valueSites 0 e he hwell).left

theorem places_testSites (label : Text) {test : Option Node}
    (h : ∀ e ∈ test, e.isExpression = true ∧ ¬ e.IllFormed) :
    Places slot (Node.identsOptional test) (testSites slot label test) := by
  cases test with
  | none => exact .nil
  | some e => exact (places_takenSites (h e rfl).1 (h e rfl).2).left

theorem places_condSites (branch : Branch) {test yes no : List Site} {names'' : List Text}
    (htest : Places slot names test) (hyes : Places slot names' yes)
    (hno : Places slot names'' no) :
    Places slot (names ++ names' ++ names'') (condSites branch test yes no) :=
  .both (.both htest.left.left.left.left hyes.right.left.left.left) hno.right.left

theorem places_loopSites (branch : Branch) {test body step : List Site} {names'' : List Text}
    (htest : Places slot names test) (hbody : Places slot names' body)
    (hstep : Places slot names'' step) :
    Places slot (names ++ names' ++ names'') (loopSites branch test body step) :=
  .both (.both htest.right.left.left.left hbody.right.left.left) hstep.right.left

variable (stem : Text)

mutual

theorem places_stmtSites (b : Nat) (n : Node) (hwell : ¬ n.IllFormed) :
    Places slot n.idents (stmtSites stem slot b n) := by
  match n with
  | .num value => exact .nil
  | .ident name => exact (places_takenSites rfl hwell).opening
  | .binary operator left right => exact (places_takenSites rfl hwell).opening
  | .ret value =>
    have hvalue := Node.value_of_operands hwell List.mem_cons_self
    exact (places_takenSites hvalue.1 hvalue.2).left.opening
  | .cond test yes no =>
    obtain ⟨htest, hyes, hno⟩ := Node.cond_parts hwell
    exact (places_condSites _ (places_testSites _ fun e he => Option.some.inj he ▸ htest)
      (places_stmtSites _ yes hyes) (places_optionalSites _ no hno)).opening
  | .loop test body =>
    obtain ⟨htest, hbody⟩ := Node.loop_parts hwell
    exact (places_loopSites _ (places_testSites _ fun e he => Option.some.inj he ▸ htest)
      (places_stmtSites _ body hbody) .nil).opening.congr (List.append_nil _)
  | .iter init test step body =>
    obtain ⟨hinit, htest, hbody, hstep⟩ := Node.iter_parts hwell
    refine (Places.both (places_optionalSites _ init hinit).left
      (places_loopSites _ (places_testSites _ htest) (places_stmtSites _ body hbody)
        (places_optionalSites _ step hstep)).right).opening.congr ?_
    simp [Node.idents]
  | .block body =>
    exact (places_allSites b body fun m => Node.not_illFormed_of_children hwell).opening

theorem places_optionalSites (b : Nat) (o : Option Node) (hwell : ∀ n ∈ o, ¬ n.IllFormed) :
    Places slot (Node.identsOptional o) (optionalSites stem slot b o) := by
  match o with
  | none => exact .nil
  | some n => exact places_stmtSites b n (hwell n rfl)

theorem places_allSites (b : Nat) (ns : List Node) (hwell : ∀ n ∈ ns, ¬ n.IllFormed) :
    Places slot (Node.identsAll ns) (allSites stem slot b ns) := by
  match ns with
  | [] => exact .nil
  | n :: rest =>
    have hfirst := places_stmtSites b n (hwell n List.mem_cons_self)
    have hothers := places_allSites (b + n.branches) rest fun m hm =>
      hwell m (List.mem_cons_of_mem n hm)
    exact .both hfirst.left hothers.right

end

theorem places_programSites (settings : Settings) (b : Nat) (p : Program)
    (hwell : ∀ n ∈ p, ¬ n.IllFormed) :
    Places slot (Node.identsAll p) (programSites settings slot b p) := by
  induction p generalizing b with
  | nil => exact .nil
  | cons n rest ih =>
    have hothers := ih (b + n.branches) fun m hm => hwell m (List.mem_cons_of_mem n hm)
    exact .both (places_stmtSites _ b n (hwell n List.mem_cons_self)).right.left hothers.right

/-- The body of a function reaches for the slot of every name in the program. -/
theorem places_bodySites (settings : Settings) {p : Program} (hwell : ¬ p.IllFormed) :
    Places slot (Node.identsAll p) (bodySites settings slot p) := by
  have hparts : ∀ n ∈ p, ¬ n.IllFormed := fun n hn hill => hwell ⟨n, hn, hill⟩
  cases p with
  | nil => exact .nil
  | cons n rest => exact places_programSites settings 0 (n :: rest) hparts

end

/-! ## Short immediates -/

theorem isEncodable_of_isShort {v : Word} (h : isShort v = true) : IsEncodable v := by
  rw [isShort, Bool.and_eq_true, decide_eq_true_eq, decide_eq_true_eq] at h
  have hlow := Int64.le_iff_toInt_le.1 h.1
  have hhigh := Int64.le_iff_toInt_le.1 h.2
  exact ⟨hlow, hhigh⟩

/-- A number that is not negative is encodable below `2 ^ 31`. -/
theorem isEncodable_ofNat_iff {n : Nat} (h : n < 2 ^ 63) :
    IsEncodable (Int64.ofNat n) ↔ n < 2 ^ 31 := by
  rw [IsEncodable, Int64.toInt_ofNat_of_lt h]
  omega

/-- In a body only the slots can be too far away. -/
theorem shortImmediates_of_emitted {slot : Text → Nat} {names : List Text} {l : Line}
    (h : Emitted slot names l) :
    ∀ v ∈ l.shortImmediates, IsEncodable v ∨ ∃ x ∈ names, l = slotLine (slot x) := by
  cases h with
  | fixed hl =>
    have hfixed : ∀ l ∈ fixedLines, l.shortImmediates ⊆ [0] := by decide
    intro v hv
    rw [List.mem_singleton.1 (hfixed l hl hv)]
    exact .inl (by decide)
  | place hx => exact fun v _ => .inr ⟨_, hx, rfl⟩
  | short hshort =>
    intro v hv
    rw [List.mem_singleton.1 hv]
    exact .inl (isEncodable_of_isShort hshort)
  | long value => nofun
  | @jump m hm label =>
    cases m with
    | jmp | jumpIf _ => nofun
    | _ => cases hm
  | label name => nofun
  | comment remark => nofun

/-- The line that reserves the frame. -/
def reserveLine (frame : Frame) : Line :=
  op (.arith .sub) [.register .rsp, .immediate frame.size]

section Function

variable {entry : Text} {frame : Frame} {slot : Text → Nat} {names : List Text}
  {body : List Site}

/-- In a function the frame can be too large as well. -/
theorem shortImmediates_function (h : Emits slot names body) :
    ∀ l ∈ functionLines entry frame body, ∀ v ∈ l.shortImmediates, IsEncodable v ∨
      (0 < frame.size ∧ l = reserveLine frame) ∨ ∃ x ∈ names, l = slotLine (slot x) := by
  intro l hl v hv
  have hentering : ∀ l ∈ entering frame, ∀ v ∈ l.shortImmediates,
      0 < frame.size ∧ l = reserveLine frame := by
    rw [entering, List.forall_mem_append]
    refine ⟨List.forall_mem_cons.2
      ⟨List.forall_mem_nil _, List.forall_mem_singleton.2 (List.forall_mem_nil _)⟩, ?_⟩
    split
    · next hpos => exact List.forall_mem_singleton.2 fun _ _ => ⟨hpos, rfl⟩
    · exact List.forall_mem_nil _
  have hepilogue : ∀ l ∈ epilogue, l.shortImmediates = [] := by decide
  rw [functionLines_eq] at hl
  simp only [List.mem_append, List.mem_cons, List.not_mem_nil, or_false] at hl
  rcases hl with (rfl | rfl | rfl) | ((hl | hl) | hl)
  · cases hv
  · cases hv
  · cases hv
  · exact .inr (.inl (hentering l hl v hv))
  · rcases shortImmediates_of_emitted (h l hl) v hv with hshort | hplace
    · exact .inl hshort
    · exact .inr (.inr hplace)
  · rw [hepilogue l hl] at hv
    cases hv

theorem reserveLine_mem (h : 0 < frame.size) :
    reserveLine frame ∈ functionLines entry frame body := by
  have hmem : reserveLine frame ∈ entering frame := by
    rw [entering, if_pos h]
    exact List.mem_append_right _ List.mem_cons_self
  rw [functionLines_eq]
  exact List.mem_append_right _ (List.mem_append_left _ (List.mem_append_left _ hmem))

/-- The size of the frame and the offset of its last slot decide. -/
theorem allEncodable_function_iff (entry : Text) (hsound : frame.Sound)
    (hemits : Emits frame.names.idxOf frame.names body)
    (hplaces : Places frame.names.idxOf frame.names body) :
    AllEncodable (functionLines entry frame body) ↔
      Frame.bytes frame.slots < 2 ^ 31 ∧ 8 * frame.names.length < 2 ^ 31 := by
  constructor
  · intro hall
    constructor
    · rcases frame.size_cases with ⟨hpos, hsize⟩ | ⟨-, hbytes⟩
      · have hencodable := hall _ (reserveLine_mem hpos) frame.size List.mem_cons_self
        rw [IsEncodable, hsize] at hencodable
        omega
      · rw [hbytes]
        decide
    · -- with more locals, the slot of this one would already be too far away
      by_contra hlength
      have hlast : 2 ^ 28 - 1 < frame.names.length := by omega
      have hindex : frame.names.idxOf (frame.names[2 ^ 28 - 1]) = 2 ^ 28 - 1 :=
        List.Nodup.idxOf_getElem hsound.1 _ hlast
      have hline := hplaces _ (List.getElem_mem hlast)
      have hmem : slotLine (frame.names.idxOf (frame.names[2 ^ 28 - 1])) ∈
          functionLines entry frame body :=
        List.mem_append_left _ (List.mem_append_right _ hline)
      rw [hindex] at hmem
      have hencodable := hall _ hmem _ List.mem_cons_self
      exact absurd ((isEncodable_ofNat_iff (by decide)).1 hencodable) (by decide)
  · rintro ⟨hbytes, hlength⟩ l hl v hv
    rcases shortImmediates_function hemits l hl v hv with
      hshort | ⟨hpos, rfl⟩ | ⟨x, hx, rfl⟩
    · exact hshort
    · rw [List.mem_singleton.1 hv]
      rcases frame.size_cases with ⟨-, hsize⟩ | ⟨hneg, -⟩
      · rw [IsEncodable, hsize]
        omega
      · exact absurd hpos hneg
    · have hindex := List.idxOf_lt_length_iff.2 hx
      have hoffset : Frame.offset (frame.names.idxOf x) < 2 ^ 31 := by
        rw [Frame.offset, wordSize]
        omega
      rw [List.mem_singleton.1 hv]
      exact (isEncodable_ofNat_iff (by omega)).2 hoffset

end Function

end Codegen

open Asm Codegen

/-- The immediates of a compiled function.  Those that need an encoding in 32 bits have one,
but for the size of the frame and the offsets of the slots, which are written as they are.
All of them have one exactly if the reserved bytes and the offset of the last slot are less
than `2 ^ 31`, and this is so for less than `2 ^ 28 - 1` slots. -/
theorem compiled_encodable_iff {source code : Text} {settings : Settings}
    (h : compile source settings = .ok code) :
    ∃ p lines s, Program.parse source = .ok p ∧ run settings.withDefaults p = .ok lines s ∧
      code = render lines ∧ s.frame.capacity = settings.frameSlots ∧
      (∀ l ∈ lines, ∀ v ∈ l.shortImmediates, IsEncodable v ∨
        (0 < s.frame.size ∧ l = reserveLine s.frame) ∨
        ∃ x ∈ s.frame.names, l = slotLine (s.frame.names.idxOf x)) ∧
      (AllEncodable lines ↔
        Frame.bytes s.frame.slots < 2 ^ 31 ∧ 8 * s.frame.names.length < 2 ^ 31) ∧
      (s.frame.slots < 2 ^ 28 - 1 → AllEncodable lines) := by
  obtain ⟨p, lines, s, hparse, -, hrun, rfl⟩ := compile_ok h
  obtain ⟨rfl, hgrows⟩ := run_ok hrun
  have hsound := hgrows.sound (Frame.sound_empty _)
  have hemits : Emits s.frame.names.idxOf s.frame.names
      (bodySites settings.withDefaults s.frame.names.idxOf p) :=
    emits_bodySites settings.withDefaults p hgrows.holds
  have hplaces : Places s.frame.names.idxOf s.frame.names
      (bodySites settings.withDefaults s.frame.names.idxOf p) := fun x hx =>
    places_bodySites settings.withDefaults (not_illFormed_of_parse hparse) x
      ((hgrows.only x hx).resolve_left List.not_mem_nil)
  have hiff := allEncodable_function_iff settings.withDefaults.entrySymbol hsound hemits hplaces
  refine ⟨p, _, s, hparse, hrun, rfl, hgrows.capacity, shortImmediates_function hemits, hiff,
    fun hslots => hiff.2 ⟨?_, ?_⟩⟩
  · have hmod : s.frame.slots % 2 ^ 61 = s.frame.slots := Nat.mod_eq_of_lt (by omega)
    rw [Frame.bytes, hmod, if_pos (by omega)]
    omega
  · have hnames := Frame.names_le_slots hsound
    omega

/-- A literal of 33 bits, in the largest frame that leaves all immediates encodable. -/
theorem long_literal_encodable :
    ∃ lines s, compile (utf8 "x=2147483648;") ⟨[], 268435454, [], false⟩ = .ok (render lines) ∧
      run ⟨utf8 "main", 268435454, utf8 ".L", false⟩
        [.binary .assign (.ident (utf8 "x")) (.num 2147483648)] = .ok lines s ∧
      s.frame.size = 2147483632 ∧ AllEncodable lines := by
  have hparse : Program.parse (utf8 "x=2147483648;") =
      .ok [.binary .assign (.ident (utf8 "x")) (.num 2147483648)] := by cbv
  have hcompile : compile (utf8 "x=2147483648;") ⟨[], 268435454, [], false⟩ = .ok _ :=
    (compile_of_parse hparse _).trans rfl
  obtain ⟨p, lines, s, hparse', hrun, hcode, hcapacity, -, -, hencodable⟩ :=
    compiled_encodable_iff hcompile
  cases hparse.symm.trans hparse'
  have hnames : s.frame.names = [utf8 "x"] := by
    cases hrun
    decide
  have hslots : s.frame.slots = 268435454 := by
    rw [Frame.slots, hcapacity, hnames]
    decide
  refine ⟨lines, s, hcompile.trans (congrArg _ hcode), hrun, ?_, hencodable ?_⟩
  · cases hrun
    decide
  · rw [hslots]
    decide

/-- One slot more and the frame takes `2 ^ 31` bytes, which the prologue subtracts from the
stack pointer in one instruction. -/
theorem large_frame_not_encodable :
    ∃ lines s, compile (utf8 "1;") ⟨[], 268435455, [], false⟩ = .ok (render lines) ∧
      run ⟨utf8 "main", 268435455, utf8 ".L", false⟩ [.num 1] = .ok lines s ∧
      op (.arith .sub) [.register .rsp, .immediate 2147483648] ∈ lines ∧
      ¬ AllEncodable lines := by
  have hparse : Program.parse (utf8 "1;") = .ok [.num 1] := by cbv
  have hmem : op (.arith .sub) [.register .rsp, .immediate 2147483648] ∈
      functionLines (utf8 "main") ⟨268435455, []⟩
        (bodySites Settings.standard (fun _ => 0) [.num 1]) :=
    reserveLine_mem (by decide)
  refine ⟨_, _, (compile_of_parse hparse _).trans rfl, rfl, hmem, fun hall => ?_⟩
  exact absurd (hall _ hmem 2147483648 List.mem_cons_self) (by decide)

end WordC
