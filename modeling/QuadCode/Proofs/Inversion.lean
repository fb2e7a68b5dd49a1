import QuadCode.Compile
import QuadCode.Proofs.Syntax
import Mathlib.Tactic

/-!
# Successful lowerings

What a tree was lowered to if lowering has succeeded, constructor by constructor:
the code of its parts, the names drawn for it, and how its code is put together.
Everything that is proved about lowered code starts from these statements.
-/

namespace QuadCode

open Lower

variable {s t : NameSupply}

@[simp] theorem Lowered.code_inVar (code : List Item) (name : String) (ty : Scalar) :
    (Lowered.inVar code name ty).code = code := rfl

@[simp] theorem Lowered.operand_inVar (code : List Item) (name : String) (ty : Scalar) :
    (Lowered.inVar code name ty).operand = .var name := rfl

theorem Value.widen_ok {v : Value} {ty : Scalar} {code : List Item} {o : Operand}
    (h : v.widen ty s = .ok ((code, o), t)) :
    (v.ty = .int ∧ ty = .float ∧
        code = [.instr (.convert .float (s.freshTemp .float).1 v.operand)] ∧
        o = .var (s.freshTemp .float).1 ∧ t = (s.freshTemp .float).2) ∨
      ((v.ty = .int → ty = .int) ∧ code = [] ∧ o = v.operand ∧ t = s) := by
  obtain ⟨src, from_⟩ := v
  rcases from_ with _ | _ <;> rcases ty with _ | _
  case int.float =>
    simp only [Value.widen, bind_eq_ok_iff, freshTemp_eq_ok_iff, pure_eq_ok_iff,
      Prod.mk.injEq] at h
    obtain ⟨dst, u, hdst, ⟨rfl, rfl⟩, rfl⟩ := h
    obtain ⟨rfl, rfl⟩ := Prod.mk.inj hdst
    exact Or.inl ⟨rfl, rfl, rfl, rfl, rfl⟩
  all_goals
    simp only [Value.widen, pure_eq_ok_iff, Prod.mk.injEq] at h
    obtain ⟨⟨rfl, rfl⟩, rfl⟩ := h
    exact Or.inr ⟨by simp, rfl, rfl, rfl⟩

theorem Lowered.balance_ok {left right : Lowered} {ops : Operands}
    (h : left.balance right s = .ok (ops, t)) :
    ∃ widenLeft lhs u widenRight rhs,
      left.value.widen (left.ty.join right.ty) s = .ok ((widenLeft, lhs), u) ∧
      right.value.widen (left.ty.join right.ty) u = .ok ((widenRight, rhs), t) ∧
      ops = ⟨right.code ++ left.code ++ widenLeft ++ widenRight, lhs, rhs,
        left.ty.join right.ty⟩ := by
  simp only [Lowered.balance, bind_eq_ok_iff, pure_eq_ok_iff, Prod.mk.injEq] at h
  obtain ⟨⟨widenLeft, lhs⟩, u, hl, ⟨widenRight, rhs⟩, u', hr, rfl, rfl⟩ := h
  exact ⟨widenLeft, lhs, u, widenRight, rhs, hl, hr, rfl⟩

/-- The operands of an operation are lowered right before left and then balanced. -/
def Expr.Operands (l r : Expr) (s : NameSupply) (ops : QuadCode.Operands) (t : NameSupply) : Prop :=
  ∃ right s₁ left s₂, r.lower s = .ok (right, s₁) ∧ l.lower s₁ = .ok (left, s₂) ∧
    left.balance right s₂ = .ok (ops, t)

theorem Expr.lower_arith_ok {op : Arith} {l r : Expr} {x : Lowered}
    (h : (arith op l r).lower s = .ok (x, t)) :
    ∃ ops u, Expr.Operands l r s ops u ∧ t = (u.freshTemp ops.ty).2 ∧
      x = .inVar (ops.code ++ [.instr (.arith op ops.ty (u.freshTemp ops.ty).1 ops.lhs ops.rhs)])
        (u.freshTemp ops.ty).1 ops.ty := by
  simp only [Expr.lower, bind_eq_ok_iff, freshTemp_eq_ok_iff, pure_eq_ok_iff, Prod.mk.injEq] at h
  obtain ⟨right, s₁, hr, left, s₂, hl, ops, u, hops, dst, u', hdst, rfl, rfl⟩ := h
  obtain ⟨rfl, rfl⟩ := Prod.mk.inj hdst
  exact ⟨ops, u, ⟨right, s₁, left, s₂, hr, hl, hops⟩, rfl, rfl⟩

theorem Expr.lower_cast_ok {ty : Scalar} {e : Expr} {x : Lowered}
    (h : (cast ty e).lower s = .ok (x, t)) :
    (x.ty = ty ∧ e.lower s = .ok (x, t)) ∨
      ∃ y u, e.lower s = .ok (y, u) ∧ y.ty ≠ ty ∧ t = (u.freshTemp ty).2 ∧
        x = .inVar (y.code ++ [.instr (.convert ty (u.freshTemp ty).1 y.operand)])
          (u.freshTemp ty).1 ty := by
  simp only [Expr.lower, bind_eq_ok_iff] at h
  obtain ⟨y, u, hy, h⟩ := h
  split at h
  · rename_i hty
    obtain ⟨rfl, rfl⟩ := Prod.mk.inj (pure_eq_ok_iff.1 h)
    exact Or.inl ⟨hty, hy⟩
  · rename_i hty
    simp only [bind_eq_ok_iff, freshTemp_eq_ok_iff, pure_eq_ok_iff, Prod.mk.injEq] at h
    obtain ⟨dst, u', hdst, rfl, rfl⟩ := h
    obtain ⟨rfl, rfl⟩ := Prod.mk.inj hdst
    exact Or.inr ⟨y, u, hy, hty, rfl, rfl⟩

theorem Expr.lower_lit_ok {v : Literal} {x : Lowered} (h : (lit v).lower s = .ok (x, t)) :
    x = ⟨[], ⟨.lit v, v.ty⟩⟩ ∧ t = s := Prod.mk.inj (pure_eq_ok_iff.1 h)

theorem Expr.lower_var_ok {name : String} {x : Lowered} (h : (var name).lower s = .ok (x, t)) :
    s.scope.find? name = some x.ty ∧ x.code = [] ∧ x.operand = .var name ∧ t = s := by
  simp only [Expr.lower, bind_eq_ok_iff, typeOf_eq_ok_iff, pure_eq_ok_iff, Prod.mk.injEq] at h
  obtain ⟨ty, u, ⟨hty, rfl⟩, rfl, rfl⟩ := h
  exact ⟨hty, rfl, rfl, rfl⟩

/-! ### Conditions -/

theorem Comparison.lower_ok {op : Comparison} {l r : Expr} {x : Lowered}
    (h : op.lower l r s = .ok (x, t)) :
    ∃ ops u, Expr.Operands l r s ops u ∧ t = (u.freshTemp .int).2 ∧
      x = .inVar (ops.code ++ [.instr (.compare op ops.ty (u.freshTemp .int).1 ops.lhs ops.rhs)])
        (u.freshTemp .int).1 .int := by
  simp only [Comparison.lower, bind_eq_ok_iff, freshFlag_eq_ok_iff, pure_eq_ok_iff,
    Prod.mk.injEq] at h
  obtain ⟨right, s₁, hr, left, s₂, hl, ops, u, hops, dst, u', hdst, rfl, rfl⟩ := h
  obtain ⟨rfl, rfl⟩ := Prod.mk.inj hdst
  exact ⟨ops, u, ⟨right, s₁, left, s₂, hr, hl, hops⟩, rfl, rfl⟩

theorem Lowered.disjoin_ok {left right x : Lowered} (h : left.disjoin right s = .ok (x, t)) :
    t = ((s.freshTemp .int).2.freshTemp .int).2 ∧
      x = .inVar
        (right.code ++ left.code ++
          [.instr (.arith .add .int (s.freshTemp .int).1 left.operand right.operand),
            .instr (.compare .ne .int ((s.freshTemp .int).2.freshTemp .int).1
              (.var (s.freshTemp .int).1) .zero)])
        ((s.freshTemp .int).2.freshTemp .int).1 .int := by
  simp only [Lowered.disjoin, bind_eq_ok_iff, freshFlag_eq_ok_iff, pure_eq_ok_iff,
    Prod.mk.injEq] at h
  obtain ⟨sum, u, hsum, dst, u', hdst, rfl, rfl⟩ := h
  obtain ⟨rfl, rfl⟩ := Prod.mk.inj hsum
  obtain ⟨rfl, rfl⟩ := Prod.mk.inj hdst
  exact ⟨rfl, rfl⟩

theorem Lowered.conjoin_ok {left right x : Lowered} (h : left.conjoin right s = .ok (x, t)) :
    t = (s.freshTemp .int).2.freshLabel.2 ∧
      x = .inVar
        (right.code ++ left.code ++
          [.instr (.compare .ne .int (s.freshTemp .int).1 left.operand .zero),
            .instr (.jumpIfZero ⟨s.nextLabel⟩ (.var (s.freshTemp .int).1)),
            .instr (.compare .ne .int (s.freshTemp .int).1 right.operand .zero),
            .mark ⟨s.nextLabel⟩])
        (s.freshTemp .int).1 .int := by
  simp only [Lowered.conjoin, bind_eq_ok_iff, freshFlag_eq_ok_iff, freshLabel_eq_ok_iff,
    pure_eq_ok_iff, Prod.mk.injEq] at h
  obtain ⟨dst, u, hdst, keep, u', hkeep, rfl, rfl⟩ := h
  obtain ⟨rfl, rfl⟩ := Prod.mk.inj hdst
  obtain ⟨rfl, rfl⟩ := Prod.mk.inj hkeep
  exact ⟨rfl, rfl⟩

theorem Lowered.negate_ok {x y : Lowered} (h : x.negate s = .ok (y, t)) :
    t = (s.freshTemp .int).2 ∧
      y = .inVar (x.code ++ [.instr (.compare .eq .int (s.freshTemp .int).1 x.operand .zero)])
        (s.freshTemp .int).1 .int := by
  simp only [Lowered.negate, bind_eq_ok_iff, freshFlag_eq_ok_iff, pure_eq_ok_iff,
    Prod.mk.injEq] at h
  obtain ⟨dst, u, hdst, rfl, rfl⟩ := h
  obtain ⟨rfl, rfl⟩ := Prod.mk.inj hdst
  exact ⟨rfl, rfl⟩

/-! ### Statements -/

namespace Stmt

variable {code : List Item}

theorem lower_assign_ok {target : String} {e : Expr}
    (h : (assign target e).lower s = .ok (code, t)) :
    ∃ x ty i, e.lower s = .ok (x, t) ∧ t.scope.find? target = some ty ∧
      x.value.store target ty = .ok i ∧ code = x.code ++ [.instr i] := by
  simp only [lower, bind_eq_ok_iff, typeOf_eq_ok_iff, ofExcept_eq_ok_iff, pure_eq_ok_iff,
    Prod.mk.injEq] at h
  obtain ⟨x, u, hx, ty, u', ⟨hty, rfl⟩, i, u'', ⟨hi, rfl⟩, rfl, rfl⟩ := h
  exact ⟨x, ty, i, hx, hty, hi, rfl⟩

theorem lower_input_ok {target : String} (h : (input target).lower s = .ok (code, t)) :
    ∃ ty, s.scope.find? target = some ty ∧ code = [.instr (.read ty target)] ∧ t = s := by
  simp only [lower, bind_eq_ok_iff, typeOf_eq_ok_iff, pure_eq_ok_iff, Prod.mk.injEq] at h
  obtain ⟨ty, u, ⟨hty, rfl⟩, rfl, rfl⟩ := h
  exact ⟨ty, hty, rfl, rfl⟩

theorem lower_output_ok {e : Expr} (h : (output e).lower s = .ok (code, t)) :
    ∃ x, e.lower s = .ok (x, t) ∧ code = x.code ++ [.instr (.print x.ty x.operand)] := by
  simp only [lower, bind_eq_ok_iff, pure_eq_ok_iff, Prod.mk.injEq] at h
  obtain ⟨x, u, hx, rfl, rfl⟩ := h
  exact ⟨x, hx, rfl⟩

theorem lower_ite_ok {c : Cond} {yes no : Stmt} (h : (ite c yes no).lower s = .ok (code, t)) :
    ∃ test s₁ yesCode s₂ noCode, c.lower (s.freshLabels 3).2 = .ok (test, s₁) ∧
      yes.lower s₁ = .ok (yesCode, s₂) ∧ no.lower s₂ = .ok (noCode, t) ∧
      code = test.code ++
        [.instr (.jumpIfZero ⟨s.nextLabel + 1⟩ test.operand), .mark ⟨s.nextLabel⟩] ++ yesCode ++
        [.instr (.jump ⟨s.nextLabel + 2⟩), .mark ⟨s.nextLabel + 1⟩] ++ noCode ++
        [.mark ⟨s.nextLabel + 2⟩] := by
  simp only [lower, bind_eq_ok_iff, freshLabel_eq_ok_iff, pure_eq_ok_iff, Prod.mk.injEq] at h
  obtain ⟨l₁, u₁, h₁, l₂, u₂, h₂, l₃, u₃, h₃, test, s₁, hc, yesCode, s₂, hyes, noCode, s₃, hno,
    rfl, rfl⟩ := h
  obtain ⟨rfl, rfl⟩ := Prod.mk.inj h₁
  obtain ⟨rfl, rfl⟩ := Prod.mk.inj h₂
  obtain ⟨rfl, rfl⟩ := Prod.mk.inj h₃
  exact ⟨test, s₁, yesCode, s₂, noCode, hc, hyes, hno, rfl⟩

theorem lower_loop_ok {c : Cond} {body : Stmt} (h : (loop c body).lower s = .ok (code, t)) :
    ∃ test s₁ bodyCode, c.lower (s.freshLabels 2).2 = .ok (test, s₁) ∧
      body.lower s₁ = .ok (bodyCode, t) ∧
      code = [.mark ⟨s.nextLabel⟩] ++ test.code ++
        [.instr (.jumpIfZero ⟨s.nextLabel + 1⟩ test.operand)] ++ bodyCode ++
        [.instr (.jump ⟨s.nextLabel⟩), .mark ⟨s.nextLabel + 1⟩] := by
  simp only [lower, bind_eq_ok_iff, freshLabel_eq_ok_iff, pure_eq_ok_iff, Prod.mk.injEq] at h
  obtain ⟨l₁, u₁, h₁, l₂, u₂, h₂, test, s₁, hc, bodyCode, s₂, hbody, rfl, rfl⟩ := h
  obtain ⟨rfl, rfl⟩ := Prod.mk.inj h₁
  obtain ⟨rfl, rfl⟩ := Prod.mk.inj h₂
  exact ⟨test, s₁, bodyCode, hc, hbody, rfl⟩

theorem lower_switch_ok {e : Expr} {cases : List Case} {otherwise : List Stmt}
    (h : (switch e cases otherwise).lower s = .ok (code, t)) :
    ∃ x s₁ head s₂ otherwiseCode s₃ caseCode, e.lower s = .ok (x, s₁) ∧ x.ty = .int ∧
      (cases.map Case.number).Nodup ∧
      Case.lowerDispatch x.operand (s₁.nextLabel + 1) cases
        (s₁.freshLabel.2.freshLabels cases.length).2 = .ok (head, s₂) ∧
      lowerAll otherwise s₂ = .ok (otherwiseCode, s₃) ∧
      Case.lowerAll ⟨s₁.nextLabel⟩ (s₁.nextLabel + 1) cases s₃ = .ok (caseCode, t) ∧
      code = x.code ++ head ++ otherwiseCode ++ [.instr (.jump ⟨s₁.nextLabel⟩)] ++ caseCode ++
        [.mark ⟨s₁.nextLabel⟩] := by
  simp only [lower, bind_eq_ok_iff, ofExcept_eq_ok_iff, freshLabel_eq_ok_iff,
    freshLabels_eq_ok_iff, pure_eq_ok_iff, Prod.mk.injEq] at h
  obtain ⟨x, s₁, hx, selector, u₁, ⟨hsel, rfl⟩, _, u₂, ⟨hdist, rfl⟩, l, u₃, hl, first, u₄, hfirst,
    head, s₂, hhead, otherwiseCode, s₃, hother, caseCode, s₄, hcases, rfl, rfl⟩ := h
  obtain ⟨rfl, rfl⟩ := Prod.mk.inj hl
  obtain ⟨rfl, rfl⟩ := Prod.mk.inj hfirst
  have hint : x.ty = .int ∧ selector = x.operand := by
    obtain ⟨xcode, o, ty⟩ := x
    cases ty <;> simp [Value.asSelector] at hsel
    exact ⟨rfl, hsel.symm⟩
  obtain ⟨hty, rfl⟩ := hint
  have hnodup : (cases.map Case.number).Nodup := by
    rw [← firstRepeat?_eq_none_iff]
    unfold Case.checkDistinct at hdist
    cases hrep : firstRepeat? (cases.map Case.number) with
    | none => rfl
    | some n => simp [hrep] at hdist
  exact ⟨x, _, head, s₂, otherwiseCode, s₃, caseCode, hx, hty, hnodup, hhead, hother, hcases, rfl⟩

theorem lowerAll_cons_ok {st : Stmt} {l : List Stmt} (h : lowerAll (st :: l) s = .ok (code, t)) :
    ∃ first u rest, st.lower s = .ok (first, u) ∧ lowerAll l u = .ok (rest, t) ∧
      code = first ++ rest := by
  simp only [lowerAll, bind_eq_ok_iff, pure_eq_ok_iff, Prod.mk.injEq] at h
  obtain ⟨first, u, hst, rest, u', hl, rfl, rfl⟩ := h
  exact ⟨first, u, rest, hst, hl, rfl⟩

theorem lowerAll_nil_ok (h : lowerAll [] s = .ok (code, t)) : code = [] ∧ t = s :=
  Prod.mk.inj (pure_eq_ok_iff.1 h)

theorem not_lower_leave_ok : leave.lower s ≠ .ok (code, t) := by simp [lower]

end Stmt

namespace Case

variable {code : List Item}

theorem lowerDispatch_cons_ok {selector : Operand} {first : Nat} {c : Case} {cases : List Case}
    (h : lowerDispatch selector first (c :: cases) s = .ok (code, t)) :
    t = (s.freshTemp .int).2 ∧
      code = dispatch selector (s.freshTemp .int).1 first (c :: cases) := by
  simp only [lowerDispatch, bind_eq_ok_iff, freshFlag_eq_ok_iff, pure_eq_ok_iff,
    Prod.mk.injEq] at h
  obtain ⟨dst, u, hdst, rfl, rfl⟩ := h
  obtain ⟨rfl, rfl⟩ := Prod.mk.inj hdst
  exact ⟨rfl, rfl⟩

theorem lowerDispatch_nil_ok {selector : Operand} {first : Nat}
    (h : lowerDispatch selector first [] s = .ok (code, t)) : code = [] ∧ t = s :=
  Prod.mk.inj (pure_eq_ok_iff.1 h)

theorem lowerAll_cons_ok {endLabel : Label} {first : Nat} {number : Int64} {body : List Stmt}
    {cases : List Case} (h : lowerAll endLabel first (⟨number, body⟩ :: cases) s = .ok (code, t)) :
    ∃ bodyCode u rest, Stmt.lowerAll body s = .ok (bodyCode, u) ∧
      lowerAll endLabel (first + 1) cases u = .ok (rest, t) ∧
      code = [.mark ⟨first⟩] ++ bodyCode ++ [.instr (.jump endLabel)] ++ rest := by
  simp only [lowerAll, bind_eq_ok_iff, pure_eq_ok_iff, Prod.mk.injEq] at h
  obtain ⟨bodyCode, u, hbody, rest, u', hcases, rfl, rfl⟩ := h
  exact ⟨bodyCode, u, rest, hbody, hcases, rfl⟩

theorem lowerAll_nil_ok {endLabel : Label} {first : Nat}
    (h : lowerAll endLabel first [] s = .ok (code, t)) : code = [] ∧ t = s :=
  Prod.mk.inj (pure_eq_ok_iff.1 h)

end Case

/-! ### Programs -/

theorem Lower.declareAll_ok {vars : List (String × Scalar)} {a : Unit}
    (h : Lower.declareAll vars s = .ok (a, t)) :
    ∃ scope, s.scope.declareAll vars = .ok scope ∧ t = { s with scope } := by
  cases hscope : s.scope.declareAll vars with
  | error e => simp [Lower.declareAll, hscope, Except.map] at h
  | ok scope =>
    simp only [Lower.declareAll, hscope, Except.map, Except.ok.injEq, Prod.mk.injEq] at h
    exact ⟨scope, rfl, h.2.symm⟩

theorem Program.lowerItems_ok {p : Program} {code : List Item}
    (h : p.lowerItems.run {} = .ok (code, t)) :
    ∃ scope, ({} : Scope).declareAll p.declared = .ok scope ∧
      Stmt.lowerAll p.body { scope } = .ok (code, t) := by
  obtain ⟨_, u, hu, hbody⟩ := bind_eq_ok_iff.1 h
  obtain ⟨scope, hscope, rfl⟩ := Lower.declareAll_ok hu
  exact ⟨scope, hscope, hbody⟩

theorem Program.lower_ok {p : Program} {f : Fragment} (h : p.lower = .ok f) :
    ∃ t, p.lowerItems.run {} = .ok (f.items, t) := by
  unfold Program.lower at h
  cases hrun : p.lowerItems.run {} with
  | error e => simp [hrun, Except.map] at h
  | ok r =>
    obtain ⟨code, t⟩ := r
    simp only [hrun, Except.map, Except.ok.injEq] at h
    subst h
    exact ⟨t, rfl⟩

theorem Program.build_ok {p : Program} {o : Options} {x : Executable} (h : p.build o = .ok x) :
    ∃ f, p.lower = .ok f ∧ f.link o.signature = .ok x := by
  unfold Program.build at h
  cases hf : p.lower with
  | error e => simp [hf, bind, Except.bind] at h
  | ok f =>
    rw [hf] at h
    exact ⟨f, rfl, h⟩

theorem exists_ok_of_isOk {ε α : Type} {r : Except ε α} (h : r.isOk = true) : ∃ a, r = .ok a := by
  cases r with
  | error e => cases h
  | ok a => exact ⟨a, rfl⟩

theorem Program.exists_lower_sample : ∃ f, Program.sample.lower = .ok f :=
  exists_ok_of_isOk (by decide +kernel)

end QuadCode
