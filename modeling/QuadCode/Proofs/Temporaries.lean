import QuadCode.Proofs.Typing

/-!
# Temporaries

A temporary joins the scope when it is drawn, and the code that it was drawn for
writes it. Beside its temporaries code writes the variables that the program
assigns, and nothing else.

* `s.Gains t y`: the name `y` was drawn on the way from `s` to `t`;
* `Accounts names targets s t code`: the names are in scope after that way, and
  the code writes what was drawn on it and the targets;
* `Expr.lower_accounts`, `Cond.lower_accounts`, `Stmt.accounts`: lowered code
  accounts for the names that its tree mentions and assigns.

A name in scope may be used, whether it was declared or drawn. So a program that
mentions a name without a declaration is refused, unless a temporary of this name
has been drawn before: `undeclared_name_refused_or_drawn`.
-/

namespace QuadCode

/-- The variable that an instruction writes. -/
def Instr.dst? {α : Type} (i : Instr α) : Option String := i.writes?.map Prod.fst

theorem Instr.dst?_of_mapTarget {α β : Type} {f : α → Option β} {i : Instr α} {j : Instr β}
    (h : i.mapTarget f = some j) : j.dst? = i.dst? := by
  rw [dst?, dst?, (reads_of_mapTarget h).2]

/-- The variables that code writes, in order. -/
def writesIn (code : List Item) : List String := (instrsIn code).filterMap Instr.dst?

section WritesIn

variable {y : String} {c d : List Item}

@[simp] theorem writesIn_nil : writesIn [] = [] := rfl

@[simp] theorem writesIn_append : writesIn (c ++ d) = writesIn c ++ writesIn d := by
  simp [writesIn]

@[simp] theorem writesIn_mark {l : Label} : writesIn (.mark l :: c) = writesIn c := rfl

@[simp] theorem mem_writesIn_instr {i : Instr Label} :
    y ∈ writesIn (.instr i :: c) ↔ i.dst? = some y ∨ y ∈ writesIn c := by
  simp [writesIn]

theorem mem_writesIn_iff : y ∈ writesIn c ↔ ∃ i ∈ instrsIn c, i.dst? = some y :=
  List.mem_filterMap

end WritesIn

variable {s t u : NameSupply}

namespace NameSupply

/-- The name is in scope in `t` and was not in `s`. -/
def Gains (s t : NameSupply) (y : String) : Prop :=
  s.scope.find? y = none ∧ t.scope.find? y ≠ none

theorem gains_iff_of_le (hsu : s ≤ u) (hut : u ≤ t) {y : String} :
    s.Gains t y ↔ s.Gains u y ∨ u.Gains t y := by
  constructor
  · rintro ⟨hs, ht⟩
    by_cases hu : u.scope.find? y = none
    · exact Or.inr ⟨hu, ht⟩
    · exact Or.inl ⟨hs, hu⟩
  · rintro (⟨hs, hu⟩ | ⟨hu, ht⟩)
    · exact ⟨hs, Scope.find?_ne_none_mono hut.scope hu⟩
    · refine ⟨?_, ht⟩
      by_contra hs
      exact Scope.find?_ne_none_mono hsu.scope hs hu

theorem gains_freshTemp_iff {ty : Scalar} {y : String} :
    s.Gains (s.freshTemp ty).2 y ↔ y = (s.freshTemp ty).1 := by
  constructor
  · rintro ⟨hs, ht⟩
    by_contra hne
    exact ht ((Scope.find?_insert _ _ _ _).trans ((if_neg hne).trans hs))
  · rintro rfl
    exact ⟨s.find?_freshTemp ty, by simp⟩

end NameSupply

/-- The names are in scope in `t`, and the code writes what was drawn on the way from `s` to `t` and
the targets. -/
structure Accounts (names targets : List String) (s t : NameSupply) (code : List Item) : Prop where
  le : s ≤ t
  inScope : ∀ y ∈ names, t.scope.find? y ≠ none
  mem_iff : ∀ y, y ∈ writesIn code ↔ s.Gains t y ∨ y ∈ targets

namespace Accounts

variable {names names' targets targets' : List String} {c d : List Item} {ty : Scalar}

theorem append (hc : Accounts names targets s u c) (hd : Accounts names' targets' u t d) :
    Accounts (names ++ names') (targets ++ targets') s t (c ++ d) := by
  refine ⟨hc.le.trans hd.le, fun y hy => ?_, fun y => ?_⟩
  · rcases List.mem_append.1 hy with hy | hy
    · exact Scope.find?_ne_none_mono hd.le.scope (hc.inScope y hy)
    · exact hd.inScope y hy
  · rw [writesIn_append, List.mem_append, hc.mem_iff, hd.mem_iff,
      NameSupply.gains_iff_of_le hc.le hd.le, List.mem_append]
    tauto

theorem nil (s : NameSupply) : Accounts [] [] s s [] :=
  ⟨le_rfl, by simp, by simp [NameSupply.Gains]⟩

/-- The code may be followed by code that writes nothing. -/
theorem skip (hc : Accounts names targets s t c) (hd : writesIn d = []) :
    Accounts names targets s t (c ++ d) :=
  ⟨hc.le, hc.inScope, fun y => by rw [writesIn_append, hd, List.append_nil, hc.mem_iff]⟩

/-- It makes no difference how many labels were drawn before. -/
theorem of_freshLabels {n : ℕ} (h : Accounts names targets (s.freshLabels n).2 t c) :
    Accounts names targets s t c :=
  ⟨(s.le_freshLabels n).trans h.le, h.inScope, h.mem_iff⟩

theorem of_freshTemp (h : ∀ y, y ∈ writesIn c ↔ y = (s.freshTemp ty).1) :
    Accounts [] [] s (s.freshTemp ty).2 c :=
  ⟨s.le_freshTemp ty, by simp, fun y => by simp [h, NameSupply.gains_freshTemp_iff]⟩

/-- Code that draws a temporary in the end and writes it. -/
theorem append_instr {i : Instr Label} (hc : Accounts names [] s u c)
    (hi : i.dst? = some (u.freshTemp ty).1) :
    Accounts names [] s (u.freshTemp ty).2 (c ++ [.instr i]) := by
  have hdraw : Accounts [] [] u (u.freshTemp ty).2 [.instr i] :=
    of_freshTemp fun y => by simp [hi, eq_comm]
  have happ := hc.append hdraw
  rwa [List.append_nil, List.append_nil] at happ

end Accounts

/-! ### Expressions and conditions -/

theorem Value.widen_accounts {v : Value} {ty : Scalar} {code : List Item} {o : Operand}
    (h : v.widen ty s = .ok ((code, o), t)) : Accounts [] [] s t code := by
  rcases Value.widen_ok h with ⟨-, -, rfl, -, rfl⟩ | ⟨-, rfl, -, rfl⟩
  · exact (Accounts.nil s).append_instr rfl
  · exact .nil _

theorem Expr.Operands.accounts {l r : Expr} {ops : QuadCode.Operands}
    (h : Expr.Operands l r s ops t)
    (hl : ∀ {s t : NameSupply} {x : Lowered}, l.lower s = .ok (x, t) →
      Accounts l.names [] s t x.code)
    (hr : ∀ {s t : NameSupply} {x : Lowered}, r.lower s = .ok (x, t) →
      Accounts r.names [] s t x.code) :
    Accounts (l.names ++ r.names) [] s t ops.code := by
  obtain ⟨right, s₁, left, s₂, hright, hleft, hops⟩ := h
  obtain ⟨wl, lhs, u, wr, rhs, hwl, hwr, rfl⟩ := Lowered.balance_ok hops
  obtain ⟨hle, hscope, hmem⟩ := (((hr hright).append (hl hleft)).append
    (Value.widen_accounts hwl)).append (Value.widen_accounts hwr)
  exact ⟨hle, fun y hy => hscope y (by simpa [or_comm] using hy), hmem⟩

theorem Expr.lower_accounts {e : Expr} {x : Lowered} (h : e.lower s = .ok (x, t)) :
    Accounts e.names [] s t x.code := by
  induction e generalizing s x t with
  | lit v =>
    obtain ⟨rfl, rfl⟩ := Expr.lower_lit_ok h
    exact .nil _
  | var name =>
    obtain ⟨hty, hcode, -, rfl⟩ := Expr.lower_var_ok h
    rw [hcode]
    exact ⟨le_rfl, by simp [Expr.names, hty], (Accounts.nil _).mem_iff⟩
  | arith op l r ihl ihr =>
    obtain ⟨ops, u, hops, rfl, rfl⟩ := Expr.lower_arith_ok h
    exact (hops.accounts ihl ihr).append_instr rfl
  | cast ty e ih =>
    rcases Expr.lower_cast_ok h with ⟨-, hx⟩ | ⟨y, u, hy, -, rfl, rfl⟩
    · exact ih hx
    · exact (ih hy).append_instr rfl

theorem Comparison.lower_accounts {op : Comparison} {l r : Expr} {x : Lowered}
    (h : op.lower l r s = .ok (x, t)) : Accounts (l.names ++ r.names) [] s t x.code := by
  obtain ⟨ops, u, hops, rfl, rfl⟩ := Comparison.lower_ok h
  exact (hops.accounts Expr.lower_accounts Expr.lower_accounts).append_instr rfl

section Connectives

variable {names : List String} {left right x : Lowered}

theorem Lowered.disjoin_accounts (h : left.disjoin right u = .ok (x, t))
    (hparts : Accounts names [] s u (right.code ++ left.code)) : Accounts names [] s t x.code := by
  obtain ⟨rfl, rfl⟩ := Lowered.disjoin_ok h
  rw [Lowered.code_inVar, ← List.singleton_append, ← List.append_assoc]
  exact (hparts.append_instr rfl).append_instr rfl

theorem Lowered.conjoin_accounts (h : left.conjoin right u = .ok (x, t))
    (hparts : Accounts names [] s u (right.code ++ left.code)) : Accounts names [] s t x.code := by
  obtain ⟨rfl, rfl⟩ := Lowered.conjoin_ok h
  have hflag : Accounts [] [] u (u.freshTemp .int).2
      [.instr (.compare .ne .int (u.freshTemp .int).1 left.operand .zero),
        .instr (.jumpIfZero ⟨u.nextLabel⟩ (.var (u.freshTemp .int).1)),
        .instr (.compare .ne .int (u.freshTemp .int).1 right.operand .zero),
        .mark ⟨u.nextLabel⟩] :=
    .of_freshTemp fun y => by simp [Instr.dst?, Instr.writes?, eq_comm]
  obtain ⟨hle, hscope, hmem⟩ := hparts.append hflag
  rw [List.append_nil] at hscope
  -- the label that is drawn last adds nothing to the scope
  exact ⟨hle.trans (NameSupply.le_freshLabel _), hscope, hmem⟩

end Connectives

theorem Comparison.lowerOrEqual_accounts {strict : Comparison} {l r : Expr} {x : Lowered}
    (h : strict.lowerOrEqual l r s = .ok (x, t)) :
    Accounts (l.names ++ r.names) [] s t x.code := by
  simp only [Comparison.lowerOrEqual, Lower.bind_eq_ok_iff] at h
  obtain ⟨equal, s₁, hequal, less, s₂, hless, hx⟩ := h
  obtain ⟨hle, hscope, hmem⟩ := Lowered.disjoin_accounts hx
    ((Comparison.lower_accounts hequal).append (Comparison.lower_accounts hless))
  exact ⟨hle, fun y hy => hscope y (List.mem_append_left _ hy), hmem⟩

theorem Relation.lower_accounts {op : Relation} {l r : Expr} {x : Lowered}
    (h : op.lower l r s = .ok (x, t)) : Accounts (l.names ++ r.names) [] s t x.code := by
  cases op
  case le => exact Comparison.lowerOrEqual_accounts h
  case ge => exact Comparison.lowerOrEqual_accounts h
  all_goals exact Comparison.lower_accounts h

theorem Cond.lower_accounts {c : Cond} {x : Lowered} (h : c.lower s = .ok (x, t)) :
    Accounts c.names [] s t x.code := by
  induction c generalizing s x t with
  | or l r ihl ihr =>
    simp only [Cond.lower, Lower.bind_eq_ok_iff] at h
    obtain ⟨right, s₁, hr, left, s₂, hl, hx⟩ := h
    obtain ⟨hle, hscope, hmem⟩ := Lowered.disjoin_accounts hx ((ihr hr).append (ihl hl))
    exact ⟨hle, fun y hy => hscope y (by simpa [Cond.names, or_comm] using hy), hmem⟩
  | and l r ihl ihr =>
    simp only [Cond.lower, Lower.bind_eq_ok_iff] at h
    obtain ⟨right, s₁, hr, left, s₂, hl, hx⟩ := h
    obtain ⟨hle, hscope, hmem⟩ := Lowered.conjoin_accounts hx ((ihr hr).append (ihl hl))
    exact ⟨hle, fun y hy => hscope y (by simpa [Cond.names, or_comm] using hy), hmem⟩
  | not c ih =>
    simp only [Cond.lower, Lower.bind_eq_ok_iff] at h
    obtain ⟨y, u, hy, hx⟩ := h
    obtain ⟨rfl, rfl⟩ := Lowered.negate_ok hx
    exact (ih hy).append_instr rfl
  | rel op l r => exact Relation.lower_accounts h

/-! ### Statements -/

/-- The variable that a statement stores a value in. -/
def Stmt.target? : Stmt → Option String
  | .assign target _ => some target
  | .input target => some target
  | _ => none

/-- The variables that statements store values in. -/
def Stmt.targets (parts : List Stmt) : List String := parts.filterMap Stmt.target?

namespace Stmt

theorem targets_append (l m : List Stmt) : targets (l ++ m) = targets l ++ targets m :=
  List.filterMap_append

theorem targets_cons_of_none {st : Stmt} (h : st.target? = none) (l : List Stmt) :
    targets (st :: l) = targets l := List.filterMap_cons_none h

end Stmt

theorem Value.dst?_of_store {v : Value} {target : String} {ty : Scalar} {i : Instr Label}
    (h : v.store target ty = .ok i) : i.dst? = some target := by
  revert h
  unfold Value.store
  split <;> simp <;> rintro rfl <;> rfl

theorem Case.mem_writesIn_dispatch {selector : Operand} {flag : String} {first : ℕ} {c : Case}
    {cases : List Case} {y : String} :
    y ∈ writesIn (dispatch selector flag first (c :: cases)) ↔ y = flag := by
  induction cases generalizing c first with
  | nil => simp [dispatch, Instr.dst?, Instr.writes?, eq_comm]
  | cons c' cases ih =>
    rw [dispatch, writesIn_append, List.mem_append, ih]
    simp [Instr.dst?, Instr.writes?, eq_comm]

theorem Case.lowerDispatch_accounts {selector : Operand} {first : ℕ} {cases : List Case}
    {code : List Item} (h : lowerDispatch selector first cases s = .ok (code, t)) :
    Accounts [] [] s t code := by
  cases cases with
  | nil =>
    obtain ⟨rfl, rfl⟩ := lowerDispatch_nil_ok h
    exact .nil _
  | cons c cases =>
    obtain ⟨rfl, rfl⟩ := lowerDispatch_cons_ok h
    exact .of_freshTemp fun y => mem_writesIn_dispatch

/-- The code of a statement accounts for the names that the statement mentions and assigns. -/
def Stmt.AccountsWell (st : Stmt) : Prop := ∀ ⦃s code t⦄, st.lower s = .ok (code, t) →
  Accounts st.names (targets st.parts) s t code

theorem Stmt.lowerAll_accounts_of {l : List Stmt} (hl : ∀ st ∈ l, st.AccountsWell)
    {code : List Item} (h : lowerAll l s = .ok (code, t)) :
    Accounts (namesAll l) (targets (partsAll l)) s t code := by
  induction l generalizing s code with
  | nil =>
    obtain ⟨rfl, rfl⟩ := lowerAll_nil_ok h
    exact .nil _
  | cons st l ih =>
    obtain ⟨hst, hl⟩ := List.forall_mem_cons.1 hl
    obtain ⟨first, u, rest, hfirst, hrest, rfl⟩ := lowerAll_cons_ok h
    rw [namesAll_cons, partsAll, targets_append]
    exact (hst hfirst).append (ih hl hrest)

theorem Case.lowerAll_accounts_of {cases : List Case}
    (hcases : ∀ c ∈ cases, ∀ st ∈ c.body, st.AccountsWell) {endLabel : Label} {first : ℕ}
    {code : List Item} (h : lowerAll endLabel first cases s = .ok (code, t)) :
    Accounts (namesAll cases) (Stmt.targets (partsAll cases)) s t code := by
  induction cases generalizing s first code with
  | nil =>
    obtain ⟨rfl, rfl⟩ := lowerAll_nil_ok h
    exact .nil _
  | cons c cases ih =>
    obtain ⟨number, body⟩ := c
    obtain ⟨hbody, hcases⟩ := List.forall_mem_cons.1 hcases
    obtain ⟨bodyCode, u, rest, hb, hrest, rfl⟩ := lowerAll_cons_ok h
    have hbodyCode := (Stmt.lowerAll_accounts_of (l := body) hbody hb).skip
      (d := [.instr (.jump endLabel)]) rfl
    rw [namesAll_cons, partsAll, Stmt.targets_append]
    exact (((Accounts.nil s).skip (d := [.mark ⟨first⟩]) rfl).append hbodyCode).append
      (ih hcases hrest)

namespace Stmt

theorem accountsWell_ite {c : Cond} {yes no : Stmt} (hyes : yes.AccountsWell)
    (hno : no.AccountsWell) : (ite c yes no).AccountsWell := by
  intro s code t h
  obtain ⟨test, s₁, yesCode, s₂, noCode, hc, hy, hn, rfl⟩ := lower_ite_ok h
  have htest := (Cond.lower_accounts hc).of_freshLabels
  rw [names_ite, ← List.append_assoc, parts, targets_cons_of_none rfl, targets_append]
  exact ((((htest.skip rfl).append (hyes hy)).skip rfl).append (hno hn)).skip rfl

theorem accountsWell_loop {c : Cond} {body : Stmt} (hbody : body.AccountsWell) :
    (loop c body).AccountsWell := by
  intro s code t h
  obtain ⟨test, s₁, bodyCode, hc, hb, rfl⟩ := lower_loop_ok h
  have hstart := ((Accounts.nil s).skip (d := [.mark ⟨s.nextLabel⟩]) rfl)
  have htest := hstart.append (Cond.lower_accounts hc).of_freshLabels
  rw [names_loop, parts, targets_cons_of_none rfl]
  exact ((htest.skip rfl).append (hbody hb)).skip rfl

theorem accountsWell_switch {e : Expr} {cases : List Case} {otherwise : List Stmt}
    (hcases : ∀ c ∈ cases, ∀ st ∈ c.body, st.AccountsWell)
    (hother : ∀ st ∈ otherwise, st.AccountsWell) : (switch e cases otherwise).AccountsWell := by
  intro s code t h
  obtain ⟨x, s₁, head, s₂, otherCode, s₃, caseCode, hx, -, -, hhead, ho, hca, rfl⟩ :=
    lower_switch_ok h
  have hhead' := (Case.lowerDispatch_accounts hhead).of_freshLabels.of_freshLabels (n := 1)
  have hotherCode := ((Expr.lower_accounts hx).append hhead').append
    (lowerAll_accounts_of hother ho)
  rw [names_switch, ← List.append_assoc, parts, targets_cons_of_none rfl, targets_append]
  rw [List.append_nil] at hotherCode
  exact ((hotherCode.skip rfl).append (Case.lowerAll_accounts_of hcases hca)).skip rfl

theorem accountsWell (st : Stmt) : st.AccountsWell := by
  induction st using Stmt.induction with
  | assign target e =>
    intro s code t h
    obtain ⟨x, ty, i, hx, hty, hi, rfl⟩ := lower_assign_ok h
    have hstore : Accounts [target] [target] t t [.instr i] :=
      ⟨le_rfl, by simp [hty], by simp [Value.dst?_of_store hi, NameSupply.Gains, eq_comm]⟩
    obtain ⟨hle, hscope, hmem⟩ := (Expr.lower_accounts hx).append hstore
    exact ⟨hle, fun y hy => hscope y (by simpa [or_comm] using hy), hmem⟩
  | input target =>
    intro s code t h
    obtain ⟨ty, hty, rfl, rfl⟩ := lower_input_ok h
    exact ⟨le_rfl, by simp [hty],
      by simp [Instr.dst?, Instr.writes?, targets, parts, target?, NameSupply.Gains, eq_comm]⟩
  | output e =>
    intro s code t h
    obtain ⟨x, hx, rfl⟩ := lower_output_ok h
    rw [names_output]
    exact (Expr.lower_accounts hx).skip rfl
  | ite c yes no hyes hno => exact accountsWell_ite hyes hno
  | loop c body hbody => exact accountsWell_loop hbody
  | switch e cases otherwise hcases hother => exact accountsWell_switch hcases hother
  | leave => exact fun s code t h => absurd h not_lower_leave_ok
  | block body hbody =>
    intro s code t h
    rw [names_block, parts, targets_cons_of_none rfl]
    exact lowerAll_accounts_of hbody h

end Stmt

theorem Program.types_eq_none {p : Program} {y : String}
    (h : ∀ d ∈ p.declarations, y ∉ d.names) : p.types y = none := by
  refine List.lookup_eq_none_iff.2 fun v hv => ?_
  obtain ⟨d, hd, hvd⟩ := List.mem_flatMap.1 hv
  obtain ⟨name, hname, rfl⟩ := List.mem_map.1 hvd
  exact bne_iff_ne.2 fun he => h d hd (he ▸ hname)

/-- Linking keeps the instructions that write a variable. -/
theorem Fragment.exists_dst_of_link {f : Fragment} {signature : String} {x : Executable}
    (h : f.link signature = .ok x) {y : String} (hy : y ∈ writesIn f.items) :
    ∃ i ∈ x.instrs, i.dst? = some y := by
  obtain ⟨i, hi, hdst⟩ := mem_writesIn_iff.1 hy
  obtain ⟨k, hk⟩ := List.mem_iff_getElem?.1 (List.mem_append_left [.halt] hi)
  obtain ⟨j, hj, hline⟩ := getElem?_of_link h hk
  exact ⟨j, List.mem_of_getElem? hline, (Instr.dst?_of_mapTarget hj).trans hdst⟩

/-- **Undeclared names.** A program that mentions a name without a declaration is refused, or the
name is that of a temporary, which was drawn for the program and which its code writes. -/
theorem undeclared_name_refused_or_drawn {p : Program} {y : String} (hy : y ∈ p.mentioned)
    (hundeclared : ∀ d ∈ p.declarations, y ∉ d.names) (o : Options) :
    (∃ e, p.compile o = .error e) ∨
      ∃ x n, p.build o = .ok x ∧ y = tempName n ∧ ∃ i ∈ x.instrs, i.dst? = some y := by
  cases hbuild : p.build o with
  | error e => exact Or.inl ⟨e, by rw [Program.compile, hbuild]; rfl⟩
  | ok x =>
    obtain ⟨f, hf, hlink⟩ := Program.build_ok hbuild
    obtain ⟨t, ht⟩ := Program.lower_ok hf
    obtain ⟨scope, hscope, hbody⟩ := Program.lowerItems_ok ht
    have hacc := Stmt.lowerAll_accounts_of (fun st _ => st.accountsWell) hbody
    -- the name has come into scope, though it was not declared
    have hgain : NameSupply.Gains { scope } t y :=
      ⟨(Program.find?_of_declareAll hscope y).trans (Program.types_eq_none hundeclared),
        hacc.inScope y hy⟩
    obtain ⟨n, hn⟩ := hacc.le.temp hgain.1 hgain.2
    exact Or.inr ⟨x, n, rfl, hn,
      Fragment.exists_dst_of_link hlink ((hacc.mem_iff y).2 (Or.inl hgain))⟩

theorem undeclared_name_refused_or_drawn_operand :
    "m" ∈ Program.mentioned ⟨[⟨["n"], .int⟩], [.output (.arith .add (.var "n") (.var "m"))]⟩ ∧
      ∃ e, Program.compile
        ⟨[⟨["n"], .int⟩], [.output (.arith .add (.var "n") (.var "m"))]⟩ = .error e := by
  have hm : "m" ∈ Program.mentioned
      ⟨[⟨["n"], .int⟩], [.output (.arith .add (.var "n") (.var "m"))]⟩ := by decide
  refine ⟨hm, (undeclared_name_refused_or_drawn hm (by decide) {}).resolve_right ?_⟩
  rintro ⟨x, n, -, hn, -⟩
  have hhead : "m".toList.head? = some '_' := by
    rw [hn]
    simp [tempName]
  exact absurd hhead (by decide)

/-- A name without a declaration is accepted behind an operation whose temporary has this name, and
refused in front of it. -/
theorem undeclared_name_of_temporary_accepted :
    ("_t0" ∈ Program.mentioned ⟨[], [.output (.arith .add (.lit (.int 1)) (.lit (.int 2))),
        .output (.var "_t0")]⟩ ∧
      Program.compile ⟨[], [.output (.arith .add (.lit (.int 1)) (.lit (.int 2))),
        .output (.var "_t0")]⟩ =
          .ok "IADD _t0 1 2\nIPRT _t0\nIPRT _t0\nHALT\n; generated by cpq 0.1.0\n") ∧
    Program.compile ⟨[], [.output (.var "_t0"),
      .output (.arith .add (.lit (.int 1)) (.lit (.int 2)))]⟩ = .error (.undeclared "_t0") := by
  refine ⟨⟨by decide, ?_⟩, ?_⟩
  · rfl
  · rfl

end QuadCode
