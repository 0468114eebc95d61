import WordC.Proofs.Grammar.Completeness
import WordC.Proofs.Printing.Scan
import WordC.Proofs.Printing.WellFormed
import WordC.Proofs.Text.Number
/-!
A printed program is read back as the program it was printed from.

Printing puts every operation in parentheses, so the text of an expression is
always a primary of the grammar.  Each lemma follows the printer: it takes the
tokens of what is printed behind a node and gives the derivation of the node from
its own tokens in front of them.
-/

namespace WordC
namespace Grammar

open WordC.Parser Token

/-! ## Primaries at every level -/

theorem Chain.ofOperand {level : Level} {ts rest : List Token} {e : Node}
    (h : Operand level ts e rest) : Chain level ts e rest :=
  .fold h .nil

theorem Primary.operand {level : Level} {ts rest : List Token} {e : Node}
    (h : Primary ts e rest) : Operand level ts e rest := by
  have hmul : Operand .mul ts e rest := .unary rfl (.plain h)
  have hadd : Operand .add ts e rest := .chain rfl (Chain.ofOperand hmul)
  have hrelational : Operand .relational ts e rest := .chain rfl (Chain.ofOperand hadd)
  cases level with
  | equality => exact .chain rfl (Chain.ofOperand hrelational)
  | relational => exact hrelational
  | add => exact hadd
  | mul => exact hmul

theorem Chain.equality {level : Level} {ts rest : List Token} {e : Node}
    (h : Chain level ts e rest) : Chain .equality ts e rest := by
  have outward : ∀ {outer inner : Level}, outer.inner? = some inner →
      Chain inner ts e rest → Chain outer ts e rest :=
    fun hinner h => Chain.ofOperand (.chain hinner h)
  cases level with
  | equality => exact h
  | relational => exact outward rfl h
  | add =>
    have hrelational : Chain .relational ts e rest := outward rfl h
    exact outward rfl hrelational
  | mul =>
    have hadd : Chain .add ts e rest := outward rfl h
    have hrelational : Chain .relational ts e rest := outward rfl hadd
    exact outward rfl hrelational

theorem Primary.expr {ts rest : List Token} {e : Node} (h : Primary ts e rest) : Expr ts e rest :=
  .assign (.plain (Chain.ofOperand h.operand))

/-- A token of the kind joins two operands to an operation. -/
inductive Joins : Operator → Token.Kind → Prop where
  | level {level : Level} {op : Operator} {k : Token.Kind} : Connects level k op → Joins op k
  | assign : Joins .assign .assign

theorem Joins.expr {op : Operator} {t : Token} {ts ts' rest : List Token} {left right : Node}
    (hjoins : Joins op t.kind) (hop : op = .assign → left.isIdent = true)
    (hleft : Primary ts left (t :: ts')) (hright : Primary ts' right rest) :
    Expr ts (.binary op left right) rest := by
  generalize hk : t.kind = k at hjoins
  cases hjoins with
  | level hlevel =>
    have hstep := Tail.cons (hk ▸ hlevel) hright.operand Tail.nil
    exact .assign (.plain (Chain.fold hleft.operand hstep).equality)
  | assign =>
    cases left with
    | ident name =>
      exact .assign (.assign (Chain.ofOperand hleft.operand) hk
        (.plain (Chain.ofOperand hright.operand)))
    | _ => exact absurd (hop rfl) (by simp [Node.isIdent])

/-! ## Pieces of a printed text -/

variable {text : Text} {Q : List Token → Prop}

theorem scans_operator {op : Operator} (hop : op ∈ Operator.all) (h : Scans text Q) :
    Scans (op.text ++ Byte.space :: text) fun ts => ∃ k, Joins op k ∧ Leads k op.text Q ts := by
  have spelled : ∀ (k : Token.Kind) {b : UInt8} {rest : Text}, Joins op k →
      op.text ++ Byte.space :: text = b :: rest → opensToken (b :: rest) = true →
      lexeme? b rest = some (k, op.text) → op.text ≠ [] →
      Scans (op.text ++ Byte.space :: text) fun ts => ∃ k, Joins op k ∧ Leads k op.text Q ts := by
    intro k b rest hjoins htext hopens hlexeme hne
    have hscans := Scans.lexeme hopens hlexeme htext.symm hne (Scans.blank rfl h)
    rw [htext]
    exact hscans.mono fun ts hts => ⟨k, hjoins, hts⟩
  simp only [Operator.all, List.mem_cons, List.not_mem_nil, or_false] at hop
  rcases hop with rfl | rfl | rfl | rfl | rfl | rfl | rfl | rfl | rfl | rfl | rfl
  · exact spelled .plus (.level .add) rfl rfl rfl (by decide)
  · exact spelled .minus (.level .sub) rfl rfl rfl (by decide)
  · exact spelled .star (.level .mul) rfl rfl rfl (by decide)
  · exact spelled .slash (.level .div) rfl rfl rfl (by decide)
  · exact spelled .less (.level .less) rfl rfl rfl (by decide)
  · exact spelled .lessEqual (.level .lessEqual) rfl rfl rfl (by decide)
  · exact spelled .greater (.level .greater) rfl rfl rfl (by decide)
  · exact spelled .greaterEqual (.level .greaterEqual) rfl rfl rfl (by decide)
  · exact spelled .equal (.level .equal) rfl rfl rfl (by decide)
  · exact spelled .notEqual (.level .notEqual) rfl rfl rfl (by decide)
  · exact spelled .assign .assign rfl rfl rfl (by decide)

theorem ofWord_of_nonneg {value : Word} (h : 0 ≤ value) :
    Text.ofWord value = Text.ofNat value.toInt.toNat ∧
      Int64.ofNat value.toInt.toNat = value ∧ value.toInt.toNat ≤ 9223372036854775807 := by
  have hnonneg : 0 ≤ value.toInt := Int64.le_iff_toInt_le.1 h
  have hlt : value.toInt < 2 ^ 63 := Int64.toInt_lt value
  refine ⟨?_, ?_, by omega⟩
  · rw [Text.ofWord, Text.ofInt, Text.signed, if_neg (by omega), Text.ofNat]
    congr 1
    omega
  · rw [← Int64.toInt_inj, Int64.toInt_ofNat_of_lt (by omega)]
    omega

/-- The text of an expression spells a primary. -/
theorem scans_value (e : Node) (he : e.isValue = true) {text : Text} {Q : List Token → Prop}
    (hapart : Apart text) (h : Scans text Q) :
    Scans (e.render ++ text) fun ts => ∃ rest, Primary ts e rest ∧ Q rest := by
  match e with
  | .num value =>
    obtain ⟨htext, hvalue, hle⟩ := ofWord_of_nonneg (of_decide_eq_true he)
    have hscans := Scans.number (Text.ofNat_ne_nil _) (Text.all_isDigit_ofNat value.toInt.toNat)
      hapart h
    rw [Node.render, htext]
    refine hscans.mono fun ts hts => ?_
    obtain ⟨t, rest, rfl, hk, hcontent, hQ⟩ := hts
    have hdecimal : Text.decimalValue t.content = value.toInt.toNat := by
      rw [hcontent, Text.decimalValue_ofNat]
    have hprimary : Primary (t :: rest) (.num (Int64.ofNat (Text.decimalValue t.content))) rest :=
      .number hk (by simp [hcontent, Text.ofNat_ne_nil])
        (by rw [hcontent, Text.all_isDigit_ofNat]) (hdecimal ▸ hle)
    rw [hdecimal, hvalue] at hprimary
    exact ⟨rest, hprimary, hQ⟩
  | .ident name =>
    have hname : name.isSymbolName = true ∧ wordKind name = .name := by
      simpa [Node.isValue, Text.isName] using he
    refine (Scans.word hname.1 hapart h).mono fun ts hts => ?_
    obtain ⟨t, rest, rfl, hk, rfl, hQ⟩ := hts
    exact ⟨rest, .name (hk.trans hname.2), hQ⟩
  | .binary op left right =>
    simp only [Node.isValue, Bool.and_eq_true, decide_eq_true_eq, Bool.or_eq_true,
      bne_iff_ne] at he
    obtain ⟨⟨⟨hknown, hassign⟩, hleft⟩, hright⟩ := he
    have hclose : Scans (Byte.rightParen :: text) (Leads .rightParen _ Q) :=
      Scans.mark .rightParen (by decide) h
    have hscans := scans_value right hright (apart_cons (by decide) text) hclose
    have hscans := Scans.blank (b := Byte.space) rfl (scans_operator hknown hscans)
    have hscans := scans_value left hleft (apart_cons (by decide) _) hscans
    have htext : (Node.binary op left right).render ++ text = Token.Kind.leftParen.text ++
        (left.render ++ Byte.space :: (op.text ++ Byte.space ::
          (right.render ++ Byte.rightParen :: text))) := by
      simp only [Node.render, List.append_assoc]
      rfl
    rw [htext]
    refine (Scans.mark .leftParen (by decide) hscans).mono fun ts hts => ?_
    obtain ⟨t, ts, rfl, ht, -, mid, hprimary, k, hjoins, u, mid', rfl, rfl, -, rest, hprimary', v,
      rest, rfl, hv, -, hQ⟩ := hts
    have hexpr := hjoins.expr (fun heq => hassign.resolve_left (not_not_intro heq)) hprimary
      hprimary'
    exact ⟨rest, .parens ht hexpr hv, hQ⟩

theorem scans_exprThen (kind : Token.Kind) {e : Node} (he : e.isValue = true)
    (hkind : kind ∈ marks) (h : Scans text Q) :
    Scans (e.render ++ (kind.text ++ text)) fun ts =>
      ∃ t rest, Expr ts e (t :: rest) ∧ t.kind = kind ∧ Q rest := by
  refine (scans_value e he (apart_mark hkind text) (Scans.mark kind hkind h)).mono fun ts hts => ?_
  obtain ⟨_, hprimary, t, rest, rfl, ht, -, hQ⟩ := hts
  exact ⟨t, rest, hprimary.expr, ht, hQ⟩

theorem scans_clause (kind : Token.Kind) {o : Option Node} (ho : Node.isClause o = true)
    (hkind : kind ∈ marks) (h : Scans text Q) :
    Scans (Node.renderClause o ++ (kind.text ++ text)) fun ts =>
      ∃ rest, Clause kind ts o rest ∧ Q rest := by
  cases o with
  | none =>
    refine (Scans.mark kind hkind h).mono fun ts hts => ?_
    obtain ⟨t, rest, rfl, ht, -, hQ⟩ := hts
    exact ⟨rest, .omitted ht, hQ⟩
  | some e =>
    refine (scans_exprThen kind ho hkind h).mono fun ts hts => ?_
    obtain ⟨t, rest, hexpr, ht, hQ⟩ := hts
    exact ⟨rest, .given hexpr ht, hQ⟩

theorem scans_condition (keyword : Token.Kind) {test : Node} (htest : test.isValue = true)
    (hkeyword : keyword ∈ keywords) (h : Scans text Q) :
    Scans (keyword.text ++ Byte.space :: Byte.leftParen ::
        (test.render ++ Byte.rightParen :: Byte.space :: text)) fun ts =>
      ∃ rest, Condition keyword ts test rest ∧ Q rest := by
  have hscans := scans_exprThen .rightParen htest (by decide) (Scans.blank (b := Byte.space) rfl h)
  have hscans := Scans.keyword keyword hkeyword (Scans.mark .leftParen (by decide) hscans)
  refine hscans.mono fun ts hts => ?_
  obtain ⟨t, ts, rfl, ht, -, u, ts, rfl, hu, -, v, rest, hexpr, hv, hQ⟩ := hts
  exact ⟨rest, .parens ht hu hexpr hv, hQ⟩

/-! ## Statements -/

theorem scans_expression {e : Node} (he : e.isValue = true) (h : Scans text Q) :
    Scans (e.renderStatement ++ text) fun ts => ∃ rest, Stmt ts e rest ∧ Q rest := by
  have hexpression : e.isExpression = true := by
    cases e with
    | num _ | ident _ | binary _ _ _ => rfl
    | _ => cases he
  have htext : e.renderStatement ++ text = e.render ++ (Token.Kind.semicolon.text ++ text) := by
    rw [Node.renderStatement, Node.closed, if_pos hexpression, List.append_assoc]
    rfl
  rw [htext]
  refine (scans_exprThen .semicolon he (by decide) h).mono fun ts hts => ?_
  obtain ⟨t, rest, hexpr, ht, hQ⟩ := hts
  exact ⟨rest, .expr hexpr ht, hQ⟩

theorem not_next_of_leads {kind k : Token.Kind} {content : Text} {ts : List Token}
    (h : Leads kind content Q ts) (hk : kind ≠ k) : ¬ Next k ts := by
  obtain ⟨t, rest, rfl, rfl, -, -⟩ := h
  exact fun hnext => hk (Option.some.inj hnext)

theorem Stmts.not_next_else {ts rest : List Token} {ns : List Node} (h : Stmts ts ns rest)
    (hrest : ¬ Next .elseWord rest) : ¬ Next .elseWord ts := by
  cases h with
  | nil => exact hrest
  | cons hfirst _ => exact hfirst.starts.not_next (by decide)

theorem renderStatement_compound {n : Node} (h : n.isExpression = false) :
    n.renderStatement = n.render := by
  rw [Node.renderStatement, Node.closed, h]
  rfl

mutual

/-- The text of a statement spells it, whatever is printed behind it, except for an
`else` behind an open statement. -/
theorem scans_statement (n : Node) (hn : n.isWellFormed = true) {text : Text}
    {Q : List Token → Prop} (hopen : n.isOpen = true → ∀ ts, Q ts → ¬ Next .elseWord ts)
    (h : Scans text Q) :
    Scans (n.renderStatement ++ text) fun ts => ∃ rest, Stmt ts n rest ∧ Q rest := by
  match n with
  | .num value => exact scans_expression hn h
  | .ident name => exact scans_expression hn h
  | .binary op left right => exact scans_expression hn h
  | .ret value =>
    have htext : (Node.ret value).renderStatement ++ text = Token.Kind.returnWord.text ++
        Byte.space :: (value.render ++ (Token.Kind.semicolon.text ++ text)) := by
      rw [renderStatement_compound rfl, Node.render]
      simp only [List.append_assoc]
      rfl
    rw [htext]
    have hscans := scans_exprThen .semicolon hn (by decide) h
    refine (Scans.keyword .returnWord (by decide) hscans).mono fun ts hts => ?_
    obtain ⟨t, ts, rfl, ht, -, u, rest, hexpr, hu, hQ⟩ := hts
    exact ⟨rest, .ret ht hexpr hu, hQ⟩
  | .cond test yes none =>
    rw [Node.isWellFormed, Bool.and_eq_true] at hn
    have htext : (Node.cond test yes none).renderStatement ++ text = Token.Kind.ifWord.text ++
        Byte.space :: Byte.leftParen :: (test.render ++ Byte.rightParen :: Byte.space ::
          (yes.renderStatement ++ text)) := by
      rw [renderStatement_compound rfl, Node.render]
      simp only [List.append_assoc]
      rfl
    rw [htext]
    have hscans := scans_statement yes hn.2 (fun _ => hopen rfl) h
    refine (scans_condition .ifWord hn.1 (by decide) hscans).mono fun ts hts => ?_
    obtain ⟨mid, hcondition, rest, hyes, hQ⟩ := hts
    exact ⟨rest, .ifOnly hcondition hyes (hopen rfl rest hQ), hQ⟩
  | .cond test yes (some no) =>
    simp only [Node.isWellFormed, Bool.and_eq_true, Bool.not_eq_true'] at hn
    obtain ⟨⟨⟨htest, hyes⟩, hclosed⟩, hno⟩ := hn
    have htext : (Node.cond test yes (some no)).renderStatement ++ text =
        Token.Kind.ifWord.text ++ Byte.space :: Byte.leftParen :: (test.render ++
          Byte.rightParen :: Byte.space :: (yes.renderStatement ++ Byte.space ::
            (Token.Kind.elseWord.text ++ Byte.space :: (no.renderStatement ++ text)))) := by
      rw [renderStatement_compound rfl, Node.render]
      simp only [List.append_assoc]
      rfl
    rw [htext]
    have hscans := scans_statement no hno hopen h
    have hscans := Scans.blank (b := Byte.space) rfl (Scans.keyword .elseWord (by decide) hscans)
    have hscans := scans_statement yes hyes (fun h => absurd h (by simp [hclosed])) hscans
    refine (scans_condition .ifWord htest (by decide) hscans).mono fun ts hts => ?_
    obtain ⟨mid, hcondition, _, hyes, t, mid', rfl, ht, -, rest, hno, hQ⟩ := hts
    exact ⟨rest, .ifElse hcondition hyes ht hno, hQ⟩
  | .loop test body =>
    rw [Node.isWellFormed, Bool.and_eq_true] at hn
    have htext : (Node.loop test body).renderStatement ++ text = Token.Kind.whileWord.text ++
        Byte.space :: Byte.leftParen :: (test.render ++ Byte.rightParen :: Byte.space ::
          (body.renderStatement ++ text)) := by
      rw [renderStatement_compound rfl, Node.render]
      simp only [List.append_assoc]
      rfl
    rw [htext]
    have hscans := scans_statement body hn.2 hopen h
    refine (scans_condition .whileWord hn.1 (by decide) hscans).mono fun ts hts => ?_
    obtain ⟨mid, hcondition, rest, hbody, hQ⟩ := hts
    exact ⟨rest, .loop hcondition hbody, hQ⟩
  | .iter init test step body =>
    simp only [Node.isWellFormed, Bool.and_eq_true] at hn
    obtain ⟨⟨⟨hinit, htest⟩, hstep⟩, hbody⟩ := hn
    have htext : (Node.iter init test step body).renderStatement ++ text =
        Token.Kind.forWord.text ++ Byte.space :: Byte.leftParen :: (Node.renderClause init ++
          Byte.semicolon :: Byte.space :: (Node.renderClause test ++ Byte.semicolon ::
            Byte.space :: (Node.renderClause step ++ Byte.rightParen :: Byte.space ::
              (body.renderStatement ++ text)))) := by
      rw [renderStatement_compound rfl, Node.render]
      simp only [List.append_assoc]
      rfl
    rw [htext]
    have hscans := scans_statement body hbody hopen h
    have hscans := scans_clause .rightParen hstep (by decide) (Scans.blank (b := Byte.space) rfl hscans)
    have hscans := scans_clause .semicolon htest (by decide) (Scans.blank (b := Byte.space) rfl hscans)
    have hscans := scans_clause .semicolon hinit (by decide) (Scans.blank (b := Byte.space) rfl hscans)
    have hscans := Scans.mark .leftParen (by decide) hscans
    refine (Scans.keyword .forWord (by decide) hscans).mono fun ts hts => ?_
    obtain ⟨t, _, rfl, ht, -, u, ts, rfl, hu, -, ts₁, hinit, ts₂, htest, ts₃, hstep, rest, hbody,
      hQ⟩ := hts
    exact ⟨rest, .iter ht hu hinit htest hstep hbody, hQ⟩
  | .block body =>
    have htext : (Node.block body).renderStatement ++ text = Token.Kind.leftBrace.text ++
        Byte.space :: (Node.renderAll body ++ (Token.Kind.rightBrace.text ++ text)) := by
      rw [renderStatement_compound rfl, Node.render]
      simp only [List.append_assoc]
      rfl
    rw [htext]
    have hscans := scans_statements body hn (fun ts hts => not_next_of_leads hts (by decide))
      (Scans.mark .rightBrace (by decide) h)
    refine (Scans.mark .leftBrace (by decide) (Scans.blank rfl hscans)).mono fun ts hts => ?_
    obtain ⟨t, ts, rfl, ht, -, _, hbody, u, rest, rfl, hu, -, hQ⟩ := hts
    exact ⟨rest, .block ht hbody hu, hQ⟩

theorem scans_statements (ns : List Node) (hns : Node.areWellFormed ns = true) {text : Text}
    {Q : List Token → Prop} (hQ : ∀ ts, Q ts → ¬ Next .elseWord ts) (h : Scans text Q) :
    Scans (Node.renderAll ns ++ text) fun ts => ∃ rest, Stmts ts ns rest ∧ Q rest := by
  match ns with
  | [] => exact h.mono fun ts hts => ⟨ts, .nil, hts⟩
  | n :: ns =>
    rw [Node.areWellFormed, Bool.and_eq_true] at hns
    have htext : Node.renderAll (n :: ns) ++ text =
        n.renderStatement ++ Byte.space :: (Node.renderAll ns ++ text) := by
      simp [Node.renderAll, Node.renderStatement]
    rw [htext]
    have hscans := scans_statements ns hns.2 hQ h
    have hscans := scans_statement n hns.1 (fun _ ts hts => by
      obtain ⟨rest, hothers, hrest⟩ := hts
      exact hothers.not_next_else (hQ rest hrest)) (Scans.blank (b := Byte.space) rfl hscans)
    refine hscans.mono fun ts hts => ?_
    obtain ⟨mid, hfirst, rest, hothers, hrest⟩ := hts
    exact ⟨rest, .cons hfirst hothers, hrest⟩

end

theorem scans_program (p : Program) (hp : Node.areWellFormed p = true) :
    Scans p.render fun ts => Stmts ts p [] := by
  induction p with
  | nil => exact Scans.nil .nil
  | cons n ns ih =>
    rw [Node.areWellFormed, Bool.and_eq_true] at hp
    have hns := ih hp.2
    have hopen : ∀ ts, Stmts ts ns [] → ¬ Next .elseWord ts :=
      fun ts hts => hts.not_next_else (by simp [Next])
    -- The last statement has no newline behind it.
    obtain ⟨tail, htext, htail⟩ : ∃ tail, Program.render (n :: ns) = n.renderStatement ++ tail ∧
        Scans tail fun ts => Stmts ts ns [] := by
      cases ns with
      | nil => exact ⟨[], by simp [Program.render, Text.join], Scans.nil .nil⟩
      | cons m ms =>
        exact ⟨Byte.newline :: Program.render (m :: ms), by simp [Program.render, Text.join],
          Scans.blank rfl hns⟩
    rw [htext]
    have hscans := scans_statement n hp.1 (fun _ => hopen) htail
    refine hscans.mono fun ts hts => ?_
    obtain ⟨mid, hfirst, hothers⟩ := hts
    exact .cons hfirst hothers

end Grammar

open Grammar

theorem parse_render_of_wellFormed {p : Program} (hp : p.isWellFormed = true) :
    Program.parse p.render = .ok p := by
  obtain ⟨tokens, hscan, hspells⟩ := scans_program p hp p.render.length .start (Nat.le_refl _)
  have hscan' : Token.scan p.render = .ok tokens := hscan
  rw [Program.parse, hscan']
  exact ofTokens_of_spells hspells

theorem wellFormed_of_parse {source : Text} {p : Program} (h : Program.parse source = .ok p) :
    p.isWellFormed = true := by
  obtain ⟨tokens, hscan, hread⟩ := exists_tokens_of_parse h
  have hproper := Token.proper_of_scan hscan
  exact (Stmts.areWellFormed (spells_of_ofTokens hproper hread) hproper).1

/-- The printed form of a well-formed program is read as that program, and reading
gives well-formed programs only. -/
theorem printed_program_read_back (p : Program) :
    (p.isWellFormed = true → Program.parse p.render = .ok p) ∧
      ∀ source, Program.parse source = .ok p →
        p.isWellFormed = true ∧ Program.parse p.render = .ok p := by
  refine ⟨parse_render_of_wellFormed, ?_⟩
  intro source h
  have hwell := wellFormed_of_parse h
  exact ⟨hwell, parse_render_of_wellFormed hwell⟩

/-- The braces keep the `else` away from the inner `if`. -/
theorem printed_braced_if_read_back :
    ∃ p : Program,
      Program.parse (utf8 "if(x)\x7bif(0<=y)return 1;\x7delse for(;;i=2)3;") = .ok p ∧
        p.isWellFormed = true ∧ Program.parse p.render = .ok p := by
  have hparse : Program.parse (utf8 "if(x)\x7bif(0<=y)return 1;\x7delse for(;;i=2)3;") =
      .ok [.cond (.ident (utf8 "x"))
        (.block [.cond (.binary .lessEqual (.num 0) (.ident (utf8 "y"))) (.ret (.num 1)) none])
        (some (.iter none none (some (.binary .assign (.ident (utf8 "i")) (.num 2)))
          (.num 3)))] := by
    cbv
  have hwell := ((printed_program_read_back _).2 _ hparse).1
  exact ⟨_, hparse, hwell, (printed_program_read_back _).1 hwell⟩

end WordC
