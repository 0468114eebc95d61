import WordC.Proofs.Asm.Assemble
import WordC.Proofs.Codegen.Layout
/-!
The labels of generated code.

A construct takes the labels of one branch number and leaves the numbers above it
to its parts.  So the labels of a statement are distinct, and every jump in it goes
to one of them.  All its lines can be read back.
-/

namespace WordC

namespace Branch

/-- The labels of a branch. -/
def names (branch : Branch) : List Text := [branch.start, branch.otherwise, branch.finish]

theorem role_injective {stem role : Text} {m n : Nat}
    (h : stem ++ role ++ Text.ofNat m = stem ++ role ++ Text.ofNat n) : m = n :=
  Text.ofNat_injective (List.append_cancel_left h)

/-- Labels with different roles differ in the two bytes behind the stem. -/
theorem role_apart {stem role role' number number' : Text}
    (h : stem ++ role ++ number = stem ++ role' ++ number') :
    (role ++ number).take 2 = (role' ++ number').take 2 := by
  rw [List.append_assoc, List.append_assoc] at h
  rw [List.append_cancel_left h]

theorem start_ne_otherwise (stem : Text) (m n : Nat) :
    (numbered stem m).start ≠ (numbered stem n).otherwise :=
  fun h => absurd (role_apart h) (show [98, 101] ≠ [101, 108] by decide)

theorem start_ne_finish (stem : Text) (m n : Nat) :
    (numbered stem m).start ≠ (numbered stem n).finish :=
  fun h => absurd (role_apart h) (show [98, 101] ≠ [101, 110] by decide)

theorem otherwise_ne_finish (stem : Text) (m n : Nat) :
    (numbered stem m).otherwise ≠ (numbered stem n).finish :=
  fun h => absurd (role_apart h) (show [101, 108] ≠ [101, 110] by decide)

/-- A label tells the number of its branch. -/
theorem number_of_names {stem : Text} {m n : Nat} {name : Text}
    (hm : name ∈ (numbered stem m).names) (hn : name ∈ (numbered stem n).names) : m = n := by
  simp only [names, List.mem_cons, List.not_mem_nil, or_false] at hm hn
  rcases hm with rfl | rfl | rfl
  · rcases hn with h | h | h
    · exact role_injective h
    · exact absurd h (start_ne_otherwise stem m n)
    · exact absurd h (start_ne_finish stem m n)
  · rcases hn with h | h | h
    · exact absurd h.symm (start_ne_otherwise stem n m)
    · exact role_injective h
    · exact absurd h (otherwise_ne_finish stem m n)
  · rcases hn with h | h | h
    · exact absurd h.symm (start_ne_finish stem n m)
    · exact absurd h.symm (otherwise_ne_finish stem n m)
    · exact role_injective h

/-- The labels of different branches differ. -/
theorem names_ne {stem : Text} {m n : Nat} (hmn : m ≠ n) {x y : Text}
    (hx : x ∈ (numbered stem m).names) (hy : y ∈ (numbered stem n).names) : x ≠ y :=
  fun heq => hmn (number_of_names hx (heq ▸ hy))

end Branch

namespace Codegen

open Asm

/-! ## Straight code -/

/-- A line that is an instruction and no jump. -/
def Straight (l : Line) : Prop := ∃ i : Instruction, l = .instruction i ∧ i.Readable ∧ i.op.isJump = false

theorem Straight.readable {l : Line} (h : Straight l) : l.Readable := by
  obtain ⟨i, rfl, hi, -⟩ := h
  exact hi

theorem Straight.label? {l : Line} (h : Straight l) : l.label? = none := by
  obtain ⟨i, rfl, -, -⟩ := h
  rfl

theorem Straight.target? {l : Line} (h : Straight l) : l.target? = none := by
  obtain ⟨⟨m, operands⟩, rfl, -, hjump⟩ := h
  have hjump' : m.isJump = false := hjump
  cases operands with
  | nil => rfl
  | cons o os => simp [Line.target?, hjump']

theorem straight_op {m : Mnemonic} {operands : List Operand} (hm : m ∈ Mnemonic.all)
    (hjump : m.isJump = false) (harity : operands.length = m.arity)
    (hoperands : ∀ o ∈ operands, o.Readable false) : Straight (op m operands) :=
  ⟨⟨m, operands⟩, rfl, ⟨hm, harity, fun o ho => hjump ▸ hoperands o ho⟩, hjump⟩

theorem straight_unary {m : Mnemonic} {o : Operand} (hm : m ∈ Mnemonic.all)
    (hjump : m.isJump = false) (harity : m.arity = 1) (ho : o.Readable false) :
    Straight (op m [o]) := by
  refine straight_op hm hjump harity.symm fun o' ho' => ?_
  rwa [List.mem_singleton.1 ho']

theorem straight_binary {m : Mnemonic} {o o' : Operand} (hm : m ∈ Mnemonic.all)
    (hjump : m.isJump = false) (harity : m.arity = 2) (ho : o.Readable false)
    (ho' : o'.Readable false) : Straight (op m [o, o']) := by
  refine straight_op hm hjump harity.symm fun o'' ho'' => ?_
  rcases List.mem_cons.1 ho'' with rfl | ho''
  · exact ho
  · rwa [List.mem_singleton.1 ho'']

theorem straight_registers {m : Mnemonic} {r r' : Register} (hm : m ∈ Mnemonic.all)
    (hjump : m.isJump = false) (harity : m.arity = 2) (hr : r ∈ Register.wide ++ [.al])
    (hr' : r' ∈ Register.wide ++ [.al]) : Straight (op m [.register r, .register r']) :=
  straight_binary hm hjump harity (Operand.readable_register hr) (Operand.readable_register hr')

theorem straight_push {r : Register} (hr : r ∈ Register.wide ++ [.al]) :
    Straight (op .push [.register r]) :=
  straight_unary (by decide) rfl rfl (Operand.readable_register hr)

theorem straight_pop {r : Register} (hr : r ∈ Register.wide ++ [.al]) :
    Straight (op .pop [.register r]) :=
  straight_unary (by decide) rfl rfl (Operand.readable_register hr)

theorem straight_immediate {m : Mnemonic} {r : Register} (hm : m ∈ Mnemonic.all)
    (hjump : m.isJump = false) (harity : m.arity = 2) (hr : r ∈ Register.wide ++ [.al])
    (value : Word) : Straight (op m [.register r, .immediate value]) :=
  straight_binary hm hjump harity (Operand.readable_register hr) (Operand.readable_immediate value)

theorem straight_slotAddress (slot : Nat) : ∀ l ∈ slotAddress slot, Straight l := by
  simp only [slotAddress, List.forall_mem_cons]
  refine ⟨straight_registers (by decide) rfl rfl (by decide) (by decide),
    straight_immediate (by decide) rfl rfl (by decide) _, nofun⟩

theorem straight_comparison (c : Condition) : ∀ l ∈ operation?.comparison c, Straight l := by
  have hset : Mnemonic.set c ∈ Mnemonic.all := by
    cases c with
    | _ => decide
  simp only [operation?.comparison, List.forall_mem_cons]
  exact ⟨straight_registers (by decide) rfl rfl (by decide) (by decide),
    straight_unary hset rfl rfl (Operand.readable_register (by decide)),
    straight_registers (by decide) rfl rfl (by decide) (by decide), nofun⟩

theorem straight_operation (operator : Operator) :
    ∀ l ∈ (operation? operator).getD [], Straight l := by
  have harith : ∀ f : Arithmetic, Straight (op (.arith f) [.register .rax, .register .rdi]) := by
    intro f
    have hf : Mnemonic.arith f ∈ Mnemonic.all := by
      cases f with
      | _ => decide
    exact straight_registers hf rfl rfl (by decide) (by decide)
  cases operator with
  | add => exact List.forall_mem_singleton.2 (harith .add)
  | sub => exact List.forall_mem_singleton.2 (harith .sub)
  | mul => exact List.forall_mem_singleton.2 (harith .imul)
  | div =>
    refine List.forall_mem_cons.2 ⟨straight_op (by decide) rfl rfl nofun, ?_⟩
    exact List.forall_mem_singleton.2
      (straight_unary (by decide) rfl rfl (Operand.readable_register (by decide)))
  | less => exact straight_comparison .l
  | lessEqual => exact straight_comparison .le
  | greater => exact straight_comparison .g
  | greaterEqual => exact straight_comparison .ge
  | equal => exact straight_comparison .e
  | notEqual => exact straight_comparison .ne
  | assign => nofun
  | unknown text => nofun

theorem straight_epilogue : ∀ l ∈ epilogue, Straight l := by
  simp only [epilogue, List.forall_mem_cons]
  exact ⟨straight_registers (by decide) rfl rfl (by decide) (by decide),
    straight_pop (by decide), straight_op (by decide) rfl rfl nofun, nofun⟩

theorem straight_plain {code : Code} (h : ∀ l ∈ code, Straight l) (depth : Nat) :
    ∀ s ∈ plain depth code, Straight s.line := by
  intro s hs
  obtain ⟨l, hl, rfl⟩ := List.mem_map.1 hs
  exact h l hl

theorem straight_valueSites (slot : Text → Nat) (depth : Nat) (e : Node) :
    ∀ s ∈ valueSites slot depth e, Straight s.line := by
  have hpush : ∀ d, ∀ r ∈ [Register.rax, .rdi], ∀ s ∈ plain d [op .push [.register r]],
      Straight s.line := by
    intro d r hr
    refine straight_plain (List.forall_mem_singleton.2 (straight_push ?_)) d
    exact (by decide : ∀ r ∈ [Register.rax, .rdi], r ∈ Register.wide ++ [.al]) r hr
  have hpop : ∀ d, ∀ r ∈ [Register.rax, .rdi], ∀ s ∈ plain d [op .pop [.register r]],
      Straight s.line := by
    intro d r hr
    refine straight_plain (List.forall_mem_singleton.2 (straight_pop ?_)) d
    exact (by decide : ∀ r ∈ [Register.rax, .rdi], r ∈ Register.wide ++ [.al]) r hr
  have hbase := Operand.readable_memory (show Register.rax ∈ Register.wide by decide) 0
  fun_induction valueSites slot depth e with
  | case1 depth value hshort =>
    exact straight_plain (List.forall_mem_singleton.2
      (straight_unary (by decide) rfl rfl (Operand.readable_immediate value))) depth
  | case2 depth value hlong =>
    refine straight_plain (List.forall_mem_cons.2
      ⟨straight_immediate (by decide) rfl rfl (by decide) value, ?_⟩) depth
    exact List.forall_mem_singleton.2 (straight_push (by decide))
  | case3 depth name =>
    refine straight_plain (List.forall_mem_append.2 ⟨straight_slotAddress (slot name), ?_⟩) depth
    refine List.forall_mem_cons.2 ⟨straight_binary (by decide) rfl rfl
      (Operand.readable_register (by decide)) hbase, ?_⟩
    exact List.forall_mem_singleton.2 (straight_push (by decide))
  | case4 depth right name ih =>
    have hstore : Straight (op .mov [.memory .rax 0, .register .rdi]) :=
      straight_binary (by decide) rfl rfl hbase (Operand.readable_register (by decide))
    have hplace : ∀ l ∈ slotAddress (slot name) ++ [op .push [.register .rax]], Straight l :=
      List.forall_mem_append.2 ⟨straight_slotAddress (slot name),
        List.forall_mem_singleton.2 (straight_push (by decide))⟩
    simp only [List.forall_mem_append]
    exact ⟨⟨⟨⟨⟨straight_plain hplace depth, ih⟩, hpop _ _ (by decide)⟩, hpop _ _ (by decide)⟩,
      List.forall_mem_singleton.2 hstore⟩, hpush _ _ (by decide)⟩
  | case5 => exact List.forall_mem_nil _
  | case6 depth operator left right hassign ihleft ihright =>
    have hcode : ∀ l ∈ (operation? operator).getD [] ++ [op .push [.register .rax]], Straight l :=
      List.forall_mem_append.2 ⟨straight_operation operator,
        List.forall_mem_singleton.2 (straight_push (by decide))⟩
    simp only [List.forall_mem_append]
    exact ⟨⟨⟨⟨ihleft, ihright⟩, hpop _ _ (by decide)⟩, hpop _ _ (by decide)⟩,
      straight_plain hcode depth⟩
  | case7 => exact List.forall_mem_nil _

theorem straight_takenSites (slot : Text → Nat) (e : Node) :
    ∀ s ∈ takenSites slot e, Straight s.line :=
  List.forall_mem_append.2 ⟨straight_valueSites slot 0 e,
    straight_plain (List.forall_mem_singleton.2 (straight_pop (by decide))) 1⟩

/-! ## Labels and jumps -/

/-- What a view of lines shows of sites, such as the labels that they define or the labels that
they jump to. -/
def siteTexts (view : Line → Option Text) (sites : List Site) : List Text :=
  (sites.map Site.line).filterMap view

section Texts

variable (view : Line → Option Text)

@[simp] theorem siteTexts_append (xs ys : List Site) :
    siteTexts view (xs ++ ys) = siteTexts view xs ++ siteTexts view ys := by
  rw [siteTexts, List.map_append, List.filterMap_append]
  rfl

@[simp] theorem siteTexts_opening (sites : List Site) :
    siteTexts view (opening sites) = siteTexts view sites := by
  rw [siteTexts, map_line_opening]
  rfl

@[simp] theorem siteTexts_plain (depth : Nat) (code : Code) :
    siteTexts view (plain depth code) = code.filterMap view := by
  rw [siteTexts, map_line_plain]

variable {view}

/-- A view that shows nothing of straight code. -/
theorem siteTexts_straight (hview : ∀ {l : Line}, Straight l → view l = none) {sites : List Site}
    (h : ∀ s ∈ sites, Straight s.line) : siteTexts view sites = [] := by
  rw [siteTexts, List.filterMap_eq_nil_iff]
  intro l hl
  obtain ⟨s, hs, rfl⟩ := List.mem_map.1 hl
  exact hview (h s hs)

end Texts

/-- What the reader needs to know of sites that take `count` branch numbers from `first`
on. -/
structure Labelled (stem : Text) (first count : Nat) (sites : List Site) : Prop where
  readable : ∀ s ∈ sites, s.line.Readable
  range : ∀ name ∈ siteTexts Line.label? sites,
    ∃ m, first ≤ m ∧ m < first + count ∧ name ∈ (Branch.numbered stem m).names
  nodup : (siteTexts Line.label? sites).Nodup
  targets : ∀ name ∈ siteTexts Line.target? sites, name ∈ siteTexts Line.label? sites

theorem readable_names {stem : Text} (hstem : ∀ b ∈ stem, IsPlain b) {m : Nat} {name : Text}
    (h : name ∈ (Branch.numbered stem m).names) : name ≠ [] ∧ ∀ b ∈ name, IsPlain b := by
  have hrole : ∀ role : Text, (∀ b ∈ role, IsPlain b) →
      ∀ b ∈ stem ++ role ++ Text.ofNat m, IsPlain b := by
    intro role hrole
    refine List.forall_mem_append.2 ⟨List.forall_mem_append.2 ⟨hstem, hrole⟩, fun b hb => ?_⟩
    have hdigit := List.all_eq_true.1 (Text.all_isDigit_ofNat m) b hb
    exact isPlain_namePart (by simp [Byte.isNamePart, hdigit])
  have hne : ∀ role : Text, stem ++ role ++ Text.ofNat m ≠ [] := by
    intro role hnil
    exact Text.ofNat_ne_nil m (List.append_eq_nil_iff.1 hnil).2
  simp only [Branch.names, List.mem_cons, List.not_mem_nil, or_false] at h
  rcases h with rfl | rfl | rfl
  · exact ⟨hne _, hrole _ (Text.forall_mem_of_all (by decide))⟩
  · exact ⟨hne _, hrole _ (Text.forall_mem_of_all (by decide))⟩
  · exact ⟨hne _, hrole _ (Text.forall_mem_of_all (by decide))⟩

theorem readable_jump {m : Mnemonic} (hm : m ∈ Mnemonic.all) (hjump : m.isJump = true)
    (harity : m.arity = 1) {name : Text} (h : name ≠ [] ∧ ∀ b ∈ name, IsPlain b) :
    (op m [.target name]).Readable := by
  refine ⟨hm, harity.symm, fun o ho => ?_⟩
  rw [List.mem_singleton.1 ho]
  show Operand.Readable m.isJump (.target name)
  rw [hjump]
  exact Operand.readable_target h.1 h.2

namespace Labelled

variable {stem : Text} {first count : Nat} {xs ys : List Site}

theorem straight (h : ∀ s ∈ xs, Straight s.line) : Labelled stem first 0 xs where
  readable s hs := (h s hs).readable
  range name hname := by
    rw [siteTexts_straight Straight.label? h] at hname
    cases hname
  nodup := by
    rw [siteTexts_straight Straight.label? h]
    exact List.nodup_nil
  targets name hname := by
    rw [siteTexts_straight Straight.target? h] at hname
    cases hname

theorem opening (h : Labelled stem first count xs) : Labelled stem first count (opening xs) where
  readable s hs := by
    have hline : s.line ∈ xs.map Site.line := by
      rw [← map_line_opening]
      exact List.mem_map_of_mem hs
    obtain ⟨s', hs', heq⟩ := List.mem_map.1 hline
    rw [← heq]
    exact h.readable s' hs'
  range := by
    rw [siteTexts_opening]
    exact h.range
  nodup := by
    rw [siteTexts_opening]
    exact h.nodup
  targets := by
    rw [siteTexts_opening, siteTexts_opening]
    exact h.targets

theorem append {count' : Nat} (h : Labelled stem first count xs)
    (h' : Labelled stem (first + count) count' ys) :
    Labelled stem first (count + count') (xs ++ ys) where
  readable := List.forall_mem_append.2 ⟨h.readable, h'.readable⟩
  range name hname := by
    rw [siteTexts_append] at hname
    rcases List.mem_append.1 hname with hname | hname
    · obtain ⟨m, hle, hlt, hm⟩ := h.range name hname
      exact ⟨m, hle, by omega, hm⟩
    · obtain ⟨m, hle, hlt, hm⟩ := h'.range name hname
      exact ⟨m, by omega, by omega, hm⟩
  nodup := by
    rw [siteTexts_append]
    refine List.nodup_append.2 ⟨h.nodup, h'.nodup, fun x hx y hy => ?_⟩
    obtain ⟨m, -, hm, hx⟩ := h.range x hx
    obtain ⟨n, hn, -, hy⟩ := h'.range y hy
    exact Branch.names_ne (by omega) hx hy
  targets name hname := by
    rw [siteTexts_append] at hname
    rw [siteTexts_append]
    rcases List.mem_append.1 hname with hname | hname
    · exact List.mem_append_left _ (h.targets name hname)
    · exact List.mem_append_right _ (h'.targets name hname)

/-- A construct adds two labels of its own number to those of its parts. -/
theorem around {b : Nat} (h : Labelled stem (b + 1) count (xs ++ ys)) {own own' : Text}
    (hown : own ∈ (Branch.numbered stem b).names) (hown' : own' ∈ (Branch.numbered stem b).names)
    (hne : own ≠ own') {sites : List Site} (hreadable : ∀ s ∈ sites, s.line.Readable)
    (hlabels : siteTexts Line.label? sites =
      siteTexts Line.label? xs ++ own :: (siteTexts Line.label? ys ++ [own']))
    (htargets : ∀ name ∈ siteTexts Line.target? sites,
      name = own ∨ name = own' ∨ name ∈ siteTexts Line.target? (xs ++ ys)) :
    Labelled stem b (1 + count) sites := by
  have hperm : (siteTexts Line.label? sites).Perm
      (own :: own' :: siteTexts Line.label? (xs ++ ys)) := by
    rw [hlabels, siteTexts_append]
    refine List.perm_middle.trans (List.Perm.cons own ?_)
    rw [← List.append_assoc]
    exact List.perm_append_singleton own' _
  have hapart : ∀ x ∈ siteTexts Line.label? (xs ++ ys),
      ∀ y ∈ (Branch.numbered stem b).names, x ≠ y := by
    intro x hx y hy
    obtain ⟨m, hm, -, hx⟩ := h.range x hx
    exact Branch.names_ne (by omega) hx hy
  refine ⟨hreadable, ?_, ?_, ?_⟩
  · intro name hname
    rcases List.mem_cons.1 (hperm.mem_iff.1 hname) with rfl | hname
    · exact ⟨b, by omega, by omega, hown⟩
    · rcases List.mem_cons.1 hname with rfl | hname
      · exact ⟨b, by omega, by omega, hown'⟩
      · obtain ⟨m, hle, hlt, hm⟩ := h.range name hname
        exact ⟨m, by omega, by omega, hm⟩
  · refine hperm.nodup_iff.2 (List.nodup_cons.2 ⟨?_, List.nodup_cons.2 ⟨?_, h.nodup⟩⟩)
    · intro hmem
      rcases List.mem_cons.1 hmem with heq | hmem
      · exact hne heq
      · exact hapart own hmem own hown rfl
    · exact fun hmem => hapart own' hmem own' hown' rfl
  · intro name hname
    refine hperm.mem_iff.2 ?_
    rcases htargets name hname with rfl | rfl | hname
    · exact List.mem_cons_self
    · exact List.mem_cons_of_mem _ List.mem_cons_self
    · exact List.mem_cons_of_mem _ (List.mem_cons_of_mem _ (h.targets name hname))

end Labelled

/-- Of a test, a view shows at most its jump. -/
theorem siteTexts_testSites {view : Line → Option Text}
    (hview : ∀ {l : Line}, Straight l → view l = none) (slot : Text → Nat) (label : Text)
    (e : Node) :
    siteTexts view (testSites slot label (some e)) =
      (view (op (.jumpIf .e) [.target label])).toList := by
  have hcmp : view (op .cmp [.register .rax, .immediate 0]) = none :=
    hview (straight_immediate (by decide) rfl rfl (by decide) 0)
  rw [testSites, siteTexts_append, siteTexts_straight hview (straight_takenSites slot e),
    siteTexts_plain, List.nil_append, List.filterMap_cons_none hcmp]
  cases hjump : view (op (.jumpIf .e) [.target label]) with
  | none => rw [List.filterMap_cons_none hjump]; rfl
  | some text => rw [List.filterMap_cons_some hjump]; rfl

theorem labels_testSites (slot : Text → Nat) (label : Text) (test : Option Node) :
    siteTexts Line.label? (testSites slot label test) = [] := by
  cases test with
  | none => rfl
  | some e => exact siteTexts_testSites Straight.label? slot label e

theorem targets_testSites (slot : Text → Nat) (label : Text) (test : Option Node) :
    ∀ name ∈ siteTexts Line.target? (testSites slot label test), name = label := by
  cases test with
  | none => nofun
  | some e =>
    rw [siteTexts_testSites Straight.target?]
    intro name hname
    exact List.mem_singleton.1 hname

theorem readable_testSites (slot : Text → Nat) {label : Text}
    (h : label ≠ [] ∧ ∀ b ∈ label, IsPlain b) (test : Option Node) :
    ∀ s ∈ testSites slot label test, s.line.Readable := by
  cases test with
  | none => nofun
  | some e =>
    rw [testSites, List.forall_mem_append]
    refine ⟨fun s hs => (straight_takenSites slot e s hs).readable, ?_⟩
    refine List.forall_mem_cons.2 ⟨?_, List.forall_mem_singleton.2 ?_⟩
    · exact (straight_immediate (by decide) rfl rfl (by decide) 0).readable
    · exact readable_jump (by decide) rfl rfl h

namespace Labelled

variable {stem : Text} {b m n : Nat}

theorem cond (hstem : ∀ b ∈ stem, IsPlain b) (slot : Text → Nat) (test : Node)
    {yes no : List Site} (h : Labelled stem (b + 1) n (yes ++ no)) :
    Labelled stem b (1 + n)
      (condSites (Branch.numbered stem b)
        (testSites slot (Branch.numbered stem b).otherwise (some test)) yes no) := by
  have hotherwise : (Branch.numbered stem b).otherwise ∈ (Branch.numbered stem b).names := by
    simp [Branch.names]
  have hfinish : (Branch.numbered stem b).finish ∈ (Branch.numbered stem b).names := by
    simp [Branch.names]
  have hparts := List.forall_mem_append.1 h.readable
  refine h.around hotherwise hfinish (Branch.otherwise_ne_finish stem b b) ?_ ?_ ?_
  · simp only [condSites, List.forall_mem_append]
    refine ⟨⟨⟨⟨?_, hparts.1⟩, ?_⟩, hparts.2⟩, ?_⟩
    · exact readable_testSites slot (readable_names hstem hotherwise) (some test)
    · refine List.forall_mem_cons.2 ⟨?_, List.forall_mem_singleton.2 ?_⟩
      · exact readable_jump (by decide) rfl rfl (readable_names hstem hfinish)
      · exact readable_names hstem hotherwise
    · exact List.forall_mem_singleton.2 (readable_names hstem hfinish)
  · simp only [condSites, siteTexts_append, siteTexts_plain, labels_testSites, List.nil_append,
      List.append_assoc]
    rfl
  · intro name hname
    simp only [condSites, siteTexts_append, siteTexts_plain, List.mem_append] at hname ⊢
    rcases hname with (((hname | hname) | hname) | hname) | hname
    · exact .inl (targets_testSites slot _ _ name hname)
    · exact .inr (.inr (.inl hname))
    · exact .inr (.inl (List.mem_singleton.1 hname))
    · exact .inr (.inr (.inr hname))
    · cases hname

theorem iter (hstem : ∀ b ∈ stem, IsPlain b) (slot : Text → Nat) (test : Option Node)
    {init body step : List Site} (h : Labelled stem (b + 1) n (init ++ (body ++ step))) :
    Labelled stem b (1 + n)
      (init ++ loopSites (Branch.numbered stem b)
        (testSites slot (Branch.numbered stem b).finish test) body step) := by
  have hstart : (Branch.numbered stem b).start ∈ (Branch.numbered stem b).names := by
    simp [Branch.names]
  have hfinish : (Branch.numbered stem b).finish ∈ (Branch.numbered stem b).names := by
    simp [Branch.names]
  have hparts := List.forall_mem_append.1 h.readable
  have hloop := List.forall_mem_append.1 hparts.2
  refine h.around hstart hfinish (Branch.start_ne_finish stem b b) ?_ ?_ ?_
  · simp only [loopSites, List.forall_mem_append]
    refine ⟨hparts.1, ⟨⟨⟨?_, ?_⟩, hloop.1⟩, hloop.2⟩, ?_⟩
    · exact List.forall_mem_singleton.2 (readable_names hstem hstart)
    · exact readable_testSites slot (readable_names hstem hfinish) test
    · refine List.forall_mem_cons.2 ⟨?_, List.forall_mem_singleton.2 ?_⟩
      · exact readable_jump (by decide) rfl rfl (readable_names hstem hstart)
      · exact readable_names hstem hfinish
  · simp only [loopSites, siteTexts_append, siteTexts_plain, labels_testSites,
      List.append_assoc]
    rfl
  · intro name hname
    simp only [loopSites, siteTexts_append, siteTexts_plain, List.mem_append] at hname ⊢
    rcases hname with hname | ((((hname | hname) | hname) | hname) | hname)
    · exact .inr (.inr (.inl hname))
    · cases hname
    · exact .inr (.inl (targets_testSites slot _ _ name hname))
    · exact .inr (.inr (.inr (.inl hname)))
    · exact .inr (.inr (.inr (.inr hname)))
    · exact .inl (List.mem_singleton.1 hname)

end Labelled

section Statements

variable {stem : Text} (slot : Text → Nat)

mutual

theorem labelled_statement (hstem : ∀ b ∈ stem, IsPlain b) (b : Nat) (n : Node) :
    Labelled stem b n.branches (stmtSites stem slot b n) := by
  match n with
  | .num value => exact (Labelled.straight (straight_takenSites slot _)).opening
  | .ident name => exact (Labelled.straight (straight_takenSites slot _)).opening
  | .binary operator left right => exact (Labelled.straight (straight_takenSites slot _)).opening
  | .ret value =>
    refine (Labelled.straight (List.forall_mem_append.2 ?_)).opening
    exact ⟨straight_takenSites slot value, straight_plain straight_epilogue 0⟩
  | .cond test yes no =>
    have hparts := (labelled_statement hstem (b + 1) yes).append
      (labelled_optional hstem (b + 1 + yes.branches) no)
    rw [Node.branches, Nat.add_assoc]
    exact (Labelled.cond hstem slot test hparts).opening
  | .loop test body =>
    have hparts : Labelled stem (b + 1) body.branches
        ([] ++ (stmtSites stem slot (b + 1) body ++ [])) := by
      rw [List.nil_append, List.append_nil]
      exact labelled_statement hstem (b + 1) body
    exact (Labelled.iter hstem slot (some test) hparts).opening
  | .iter init test step body =>
    have hparts := (labelled_optional hstem (b + 1) init).append
      ((labelled_statement hstem (b + 1 + Node.branchesOptional init) body).append
        (labelled_optional hstem (b + 1 + Node.branchesOptional init + body.branches) step))
    rw [Node.branches, Nat.add_assoc, Nat.add_assoc]
    exact (Labelled.iter hstem slot test hparts).opening
  | .block body => exact (labelled_statements hstem b body).opening

theorem labelled_optional (hstem : ∀ b ∈ stem, IsPlain b) (b : Nat) (n : Option Node) :
    Labelled stem b (Node.branchesOptional n) (optionalSites stem slot b n) := by
  match n with
  | none => exact .straight nofun
  | some n => exact labelled_statement hstem b n

theorem labelled_statements (hstem : ∀ b ∈ stem, IsPlain b) (b : Nat) (ns : List Node) :
    Labelled stem b (Node.branchesAll ns) (allSites stem slot b ns) := by
  match ns with
  | [] => exact .straight nofun
  | n :: rest =>
    exact (labelled_statement hstem b n).append (labelled_statements hstem (b + n.branches) rest)

end

end Statements

/-! ## Whole programs -/

theorem newline_not_mem_replace (t : Text) : Byte.newline ∉ Text.replace Byte.newline [Byte.space] t := by
  induction t with
  | nil => nofun
  | cons b rest ih =>
    rw [Text.replace]
    split
    · intro hmem
      rcases List.mem_append.1 hmem with hmem | hmem
      · exact absurd hmem (by decide)
      · exact ih hmem
    · next hb =>
      intro hmem
      rcases List.mem_cons.1 hmem with heq | hmem
      · exact hb heq.symm
      · exact ih hmem

theorem getLast?_replace {t : Text} {b : UInt8} (hb : b ≠ Byte.newline) (h : t.getLast? = some b) :
    (Text.replace Byte.newline [Byte.space] t).getLast? = some b := by
  induction t with
  | nil => cases h
  | cons c rest ih =>
    cases rest with
    | nil =>
      obtain rfl : c = b := Option.some.inj h
      rw [Text.replace, if_neg hb]
      rfl
    | cons d rest =>
      have hrest := ih h
      have hne : Text.replace Byte.newline [Byte.space] (d :: rest) ≠ [] := by
        intro hnil
        rw [hnil] at hrest
        cases hrest
      rw [Text.replace]
      split
      · rw [List.getLast?_append, hrest]
        rfl
      · rw [List.getLast?_cons_of_ne_nil hne, hrest]

/-- The text of a statement ends in a semicolon or a brace. -/
theorem getLast?_renderStatement (n : Node) :
    ∃ b ∈ [Byte.semicolon, Byte.rightBrace], n.renderStatement.getLast? = some b := by
  have hmark : ∀ (t : Text) (b : UInt8), (t ++ [b]).getLast? = some b := fun t b => by simp
  have hbehind : ∀ (t : Text) (m : Node),
      (∃ b ∈ [Byte.semicolon, Byte.rightBrace], m.renderStatement.getLast? = some b) →
      ∃ b ∈ [Byte.semicolon, Byte.rightBrace], (t ++ m.renderStatement).getLast? = some b := by
    rintro t m ⟨b, hb, hlast⟩
    exact ⟨b, hb, by rw [List.getLast?_append, hlast, Option.some_or]⟩
  match n with
  | .num _ | .ident _ | .binary _ _ _ | .ret _ => exact ⟨Byte.semicolon, by decide, hmark _ _⟩
  | .cond test yes none =>
    have htext : (Node.cond test yes none).renderStatement =
        utf8 "if (" ++ test.render ++ utf8 ") " ++ yes.renderStatement := List.append_nil _
    rw [htext]
    exact hbehind _ yes (getLast?_renderStatement yes)
  | .cond test yes (some no) =>
    have htext : (Node.cond test yes (some no)).renderStatement =
        utf8 "if (" ++ test.render ++ utf8 ") " ++ yes.renderStatement ++
          (utf8 " else " ++ no.renderStatement) := rfl
    rw [htext, ← List.append_assoc]
    exact hbehind _ no (getLast?_renderStatement no)
  | .loop test body => exact hbehind _ body (getLast?_renderStatement body)
  | .iter init test step body => exact hbehind _ body (getLast?_renderStatement body)
  | .block body => exact ⟨Byte.rightBrace, by decide, hmark _ _⟩

theorem Labelled.announcement (stem : Text) (first : Nat) (n : Node) :
    Labelled stem first 0 (plain 0 [announcement n]) where
  readable := by
    obtain ⟨b, hb, hlast⟩ := getLast?_renderStatement n
    have hmark : b ≠ Byte.newline ∧ b ≠ Byte.colon := by
      simp only [List.mem_cons, List.not_mem_nil, or_false] at hb
      rcases hb with rfl | rfl
      · decide
      · decide
    refine List.forall_mem_singleton.2 ⟨newline_not_mem_replace _, fun hcolon => ?_⟩
    rw [getLast?_replace hmark.1 hlast] at hcolon
    exact hmark.2 (Option.some.inj hcolon)
  range := nofun
  nodup := List.nodup_nil
  targets := nofun

theorem labelled_program {settings : Settings} (hstem : ∀ b ∈ settings.labelStem, IsPlain b)
    (slot : Text → Nat) (b : Nat) (p : Program) :
    Labelled settings.labelStem b (Node.branchesAll p) (programSites settings slot b p) := by
  induction p generalizing b with
  | nil => exact .straight nofun
  | cons n rest ih =>
    have hfirst := (labelled_statement slot hstem b n).append (ih (b + n.branches))
    rw [programSites, List.append_assoc]
    split
    · have hall := (Labelled.announcement settings.labelStem b n).append hfirst
      rwa [Nat.zero_add] at hall
    · exact hfirst

theorem labelled_body {settings : Settings} (hstem : ∀ b ∈ settings.labelStem, IsPlain b)
    (slot : Text → Nat) (p : Program) :
    Labelled settings.labelStem 0 (Node.branchesAll p) (bodySites settings slot p) := by
  rw [bodySites]
  split
  · next hempty =>
    rw [List.isEmpty_iff.1 hempty]
    exact .straight (straight_plain (List.forall_mem_singleton.2
      (straight_immediate (by decide) rfl rfl (by decide) 0)) 0)
  · exact labelled_program hstem slot 0 p

end Codegen
end WordC
