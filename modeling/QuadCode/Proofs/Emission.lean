import QuadCode.Emission
import QuadCode.Proofs.Names

/-!
# Emission is lowering

A fragment need not have a value, so emission looks as if it could fail where
lowering cannot. It does not: emission makes the code that lowering makes, finds
the faults that lowering finds, and finds no others.

* `Expr.emit_eq` and `Cond.emit_eq`: the fragment of an expression or of a
  condition is its lowered code with its value. So there is a value wherever one
  is taken out (`Expr.valued_emit`, `Cond.valued_emit`);
* `Stmt.emit_eq`: the fragment of a statement is its lowered code and has no
  value;
* `Program.emit_eq_lower`: a program has one code in both ways.

The equations hold between steps and name no supply. Only the labels of a switch
need one, as they are drawn one by one here and all at once in lowering.
-/

namespace QuadCode

/-- Lowered code as a fragment with a value. -/
def Lowered.fragment (x : Lowered) : Fragment := ⟨x.code, some x.value⟩

/-- Every fragment that a step makes has a value. -/
def Lower.Valued (x : Lower Fragment) : Prop :=
  ∀ ⦃s f t⦄, x s = .ok (f, t) → f.value.isSome

theorem Lower.valued_map_fragment (x : Lower Lowered) : Lower.Valued (Lowered.fragment <$> x) := by
  intro s f t h
  obtain ⟨y, _, -, hy⟩ := Lower.map_eq_ok_iff.1 h
  obtain ⟨rfl, rfl⟩ := Prod.mk.inj hy
  rfl

/-- Code as a fragment without a value. -/
def Fragment.ofItems (items : List Item) : Fragment := { items }

namespace Fragment

@[simp] theorem emit_ofItems (code : List Item) (i : Instr Label) :
    (ofItems code).emit i = ofItems (code ++ [.instr i]) := rfl

@[simp] theorem place_ofItems (code : List Item) (l : Label) :
    (ofItems code).place l = ofItems (code ++ [.mark l]) := rfl

@[simp] theorem place_empty (l : Label) : ({} : Fragment).place l = ofItems [.mark l] := rfl

@[simp] theorem append_ofItems (code rest : List Item) :
    (ofItems code).append (ofItems rest) = ofItems (code ++ rest) := rfl

end Fragment

/-- The search for a temporary ends at a name that can be declared. -/
theorem Lower.drawTemp_eq (ty : Scalar) : Lower.drawTemp ty = Lower.freshTemp ty := by
  funext s
  show (s.scope.declare (s.freshTemp ty).1 ty).map _ = .ok (s.freshTemp ty)
  rw [s.declare_freshTemp ty]
  rfl

theorem Lower.drawFlag_eq : Lower.drawFlag = Lower.freshFlag := Lower.drawTemp_eq .int

theorem Lowered.takeValue_fragment (x : Lowered) (what : String) :
    Lower.takeValue x.fragment what = pure (x.value, .ofItems x.code) := rfl

/-! ### Expressions -/

theorem Lowered.joinOperands_fragment (left right : Lowered) :
    left.fragment.joinOperands right.fragment =
      (fun ops : Operands => (.ofItems ops.code, ⟨ops.lhs, ops.ty⟩, ⟨ops.rhs, ops.ty⟩, ops.ty)) <$>
        left.balance right := by
  obtain ⟨leftCode, lhs, lty⟩ := left
  obtain ⟨rightCode, rhs, rty⟩ := right
  simp only [Fragment.joinOperands, Lowered.takeValue_fragment, Value.emitWiden, Lower.drawTemp_eq,
    Lowered.balance, pure_bind]
  -- if the types differ, one of the two values is converted; if not, none is
  cases lty <;> cases rty <;>
    simp [Scalar.join, Value.widen, Fragment.append, Fragment.ofItems, Fragment.emit]

theorem Expr.emit_eq (e : Expr) : e.emit = Lowered.fragment <$> e.lower := by
  induction e with
  | lit l => rfl
  | var name =>
    simp only [Expr.emit, Expr.lower, map_bind, map_pure]
    rfl
  | arith op l r ihl ihr =>
    simp only [Expr.emit, Expr.lower, ihl, ihr, bind_map_left, map_bind, map_pure,
      Lowered.joinOperands_fragment, Lower.drawTemp_eq]
    rfl
  | cast ty e ih =>
    simp only [Expr.emit, Expr.lower, ih, bind_map_left, map_bind, Lowered.takeValue_fragment,
      pure_bind, Lower.drawTemp_eq]
    refine bind_congr fun x => ?_
    -- a value that has the type already goes back into the fragment
    by_cases h : x.value.ty = ty
    · simp only [h, if_true, map_pure]
      rfl
    · simp only [h, if_false, map_bind, map_pure]
      rfl

theorem Expr.valued_emit (e : Expr) : e.emit.Valued := by
  rw [e.emit_eq]
  exact Lower.valued_map_fragment e.lower

/-! ### Conditions -/

theorem Comparison.emit_eq (op : Comparison) (l r : Expr) :
    op.emit l r = Lowered.fragment <$> op.lower l r := by
  simp only [Comparison.emit, Comparison.lower, Expr.emit_eq, bind_map_left, map_bind, map_pure,
    Lowered.joinOperands_fragment, Lower.drawFlag_eq]
  rfl

namespace Lowered

theorem joinConds_fragment (left right : Lowered) :
    left.fragment.joinConds right.fragment =
      pure (.ofItems (right.code ++ left.code), left.operand, right.operand) := rfl

theorem emitOr_fragment (left right : Lowered) :
    left.fragment.emitOr right.fragment = fragment <$> left.disjoin right := by
  simp only [Fragment.emitOr, disjoin, joinConds_fragment, pure_bind, Lower.drawFlag_eq, map_bind,
    map_pure]
  simp [Fragment.emit, Fragment.withValue, Fragment.ofItems, inVar, fragment]

theorem emitAnd_fragment (left right : Lowered) :
    left.fragment.emitAnd right.fragment = fragment <$> left.conjoin right := by
  simp only [Fragment.emitAnd, conjoin, joinConds_fragment, pure_bind, Lower.drawFlag_eq, map_bind,
    map_pure]
  simp [Fragment.emit, Fragment.place, Fragment.withValue, Fragment.ofItems, inVar, fragment]

theorem emitNot_fragment (x : Lowered) : x.fragment.emitNot = fragment <$> x.negate := by
  simp only [Fragment.emitNot, negate, takeValue_fragment, pure_bind, Lower.drawFlag_eq, map_bind,
    map_pure]
  rfl

end Lowered

theorem Comparison.emitOrEqual_eq (strict : Comparison) (l r : Expr) :
    strict.emitOrEqual l r = Lowered.fragment <$> strict.lowerOrEqual l r := by
  simp only [Comparison.emitOrEqual, Comparison.lowerOrEqual, Comparison.emit_eq, bind_map_left,
    Lowered.emitOr_fragment, map_bind]

theorem Relation.emit_eq (op : Relation) (l r : Expr) :
    op.emit l r = Lowered.fragment <$> op.lower l r := by
  cases op with
  | lt => exact Comparison.emit_eq .lt l r
  | gt => exact Comparison.emit_eq .gt l r
  | eq => exact Comparison.emit_eq .eq l r
  | ne => exact Comparison.emit_eq .ne l r
  | le => exact Comparison.emitOrEqual_eq .lt l r
  | ge => exact Comparison.emitOrEqual_eq .gt l r

theorem Cond.emit_eq (c : Cond) : c.emit = Lowered.fragment <$> c.lower := by
  induction c with
  | or l r ihl ihr =>
    simp only [Cond.emit, Cond.lower, ihl, ihr, bind_map_left, Lowered.emitOr_fragment, map_bind]
  | and l r ihl ihr =>
    simp only [Cond.emit, Cond.lower, ihl, ihr, bind_map_left, Lowered.emitAnd_fragment, map_bind]
  | not c ih =>
    simp only [Cond.emit, Cond.lower, ih, bind_map_left, Lowered.emitNot_fragment, map_bind]
  | rel op l r => exact op.emit_eq l r

theorem Cond.valued_emit (c : Cond) : c.emit.Valued := by
  rw [c.emit_eq]
  exact Lower.valued_map_fragment c.lower

/-! ### The labels of a switch -/

/-- The labels with `n` consecutive numbers. -/
def labelsFrom (first n : ℕ) : List Label := (List.range' first n).map Label.mk

theorem labelsFrom_succ (first n : ℕ) :
    labelsFrom first (n + 1) = ⟨first⟩ :: labelsFrom (first + 1) n := rfl

/-- Labels are drawn one by one up to the first number that was there before. -/
theorem Case.drawLabels_run (seen : List Int64) (cases : List Case) (s : NameSupply) :
    Case.drawLabels seen cases s =
      match firstRepeatAfter seen (cases.map Case.number) with
      | some n => .error (.duplicateCase n)
      | none => .ok (labelsFrom s.nextLabel cases.length, (s.freshLabels cases.length).2) := by
  induction cases generalizing seen s with
  | nil => rfl
  | cons c cases ih =>
    by_cases h : c.number ∈ seen
    · simp only [Case.drawLabels, List.map_cons, firstRepeatAfter, h, if_true]
      rfl
    · simp only [Case.drawLabels, List.map_cons, firstRepeatAfter, h, if_false]
      show (Case.drawLabels (c.number :: seen) cases >>= fun labels =>
        pure ((⟨s.nextLabel⟩ : Label) :: labels)) s.freshLabel.2 = _
      simp only [bind, StateT.bind, ih]
      cases firstRepeatAfter (c.number :: seen) (cases.map Case.number) with
      | some n => rfl
      | none =>
        have hnext : s.nextLabel + 1 + cases.length = s.nextLabel + (cases.length + 1) := by omega
        simp only [NameSupply.freshLabels, NameSupply.freshLabel, List.length_cons,
          labelsFrom_succ, hnext]
        rfl

/-- The number of each case is looked at before its label is drawn. Since no supply is left behind
by a fault, all of them may as well be looked at first. -/
theorem Case.drawLabels_bind {α : Type} (cases : List Case) (k : Label → List Label → Lower α) :
    (do
      let endLabel ← Lower.freshLabel
      let labels ← Case.drawLabels [] cases
      k endLabel labels) =
    (do
      Lower.ofExcept (Case.checkDistinct cases)
      let endLabel ← Lower.freshLabel
      let first ← Lower.freshLabels cases.length
      k endLabel (labelsFrom first cases.length)) := by
  funext s
  show (Case.drawLabels [] cases >>= k ⟨s.nextLabel⟩) s.freshLabel.2 = _
  simp only [bind, StateT.bind, Case.drawLabels_run, Case.checkDistinct, firstRepeat?]
  cases firstRepeatAfter [] (cases.map Case.number) with
  | some n => rfl
  | none => rfl

theorem Case.foldl_emitTest (selector : Operand) (flag : String) (cases : List Case)
    (first : ℕ) (code : List Item) :
    ((labelsFrom first cases.length).zip cases).foldl (Fragment.emitTest selector flag)
        (.ofItems code) =
      .ofItems (code ++ Case.dispatch selector flag first cases) := by
  induction cases generalizing first code with
  | nil => simp [Case.dispatch]
  | cons c cases ih =>
    rw [List.length_cons, labelsFrom_succ, List.zip_cons_cons, List.foldl_cons]
    have htest : Fragment.emitTest selector flag (.ofItems code) (⟨first⟩, c) =
        .ofItems (code ++ [.instr (.compare .ne .int flag selector (.lit (.int c.number))),
          .instr (.jumpIfZero ⟨first⟩ (.var flag))]) := by
      simp [Fragment.emitTest]
    rw [htest, ih, Case.dispatch, List.append_assoc]

theorem Case.emitTests_eq (selector : Operand) (cases : List Case) (first : ℕ)
    (code : List Item) :
    (Fragment.ofItems code).emitTests selector ((labelsFrom first cases.length).zip cases) =
      (fun head => .ofItems (code ++ head)) <$> Case.lowerDispatch selector first cases := by
  cases cases with
  | nil => simp [Fragment.emitTests, Case.lowerDispatch]
  | cons c cases =>
    have hne : ((labelsFrom first (c :: cases).length).zip (c :: cases)).isEmpty = false := rfl
    simp only [Fragment.emitTests, hne, Case.lowerDispatch, Lower.drawFlag_eq,
      Case.foldl_emitTest, map_bind, map_pure]
    rfl

/-! ### Statements -/

theorem Stmt.emitAll_of {l : List Stmt} (h : ∀ s ∈ l, s.emit = Fragment.ofItems <$> s.lower)
    (code : List Item) :
    Stmt.emitAll (.ofItems code) l =
      (fun rest => .ofItems (code ++ rest)) <$> Stmt.lowerAll l := by
  induction l generalizing code with
  | nil => simp [Stmt.emitAll, Stmt.lowerAll]
  | cons s l ih =>
    obtain ⟨hs, hl⟩ := List.forall_mem_cons.1 h
    simp only [Stmt.emitAll, Stmt.lowerAll, hs, bind_map_left, map_bind, map_pure]
    refine bind_congr fun first => ?_
    have happend : ({ Fragment.ofItems code with value := (Fragment.ofItems first).value }
        : Fragment).append (.ofItems first) = .ofItems (code ++ first) := rfl
    rw [happend, ih hl]
    simp only [map_eq_pure_bind, List.append_assoc]

theorem Stmt.emitAll_nil_of {l : List Stmt} (h : ∀ s ∈ l, s.emit = Fragment.ofItems <$> s.lower) :
    Stmt.emitAll {} l = Fragment.ofItems <$> Stmt.lowerAll l := Stmt.emitAll_of h []

theorem Case.emitAll_of (endLabel : Label) {cases : List Case}
    (h : ∀ c ∈ cases, ∀ s ∈ c.body, s.emit = Fragment.ofItems <$> s.lower) (first : ℕ)
    (code : List Item) :
    Case.emitAll endLabel (.ofItems code) (labelsFrom first cases.length) cases =
      (fun rest => .ofItems (code ++ rest)) <$> Case.lowerAll endLabel first cases := by
  induction cases generalizing first code with
  | nil => simp [Case.emitAll, Case.lowerAll]
  | cons c cases ih =>
    obtain ⟨number, body⟩ := c
    obtain ⟨hc, hcases⟩ := List.forall_mem_cons.1 h
    rw [List.length_cons, labelsFrom_succ]
    simp only [Case.emitAll, Case.lowerAll, Stmt.emitAll_nil_of hc, bind_map_left, map_bind,
      map_pure]
    refine bind_congr fun bodyCode => ?_
    simp only [Fragment.place_ofItems, Fragment.append_ofItems, Fragment.emit_ofItems, ih hcases,
      map_eq_pure_bind, List.append_assoc]

theorem Stmt.emit_eq (s : Stmt) : s.emit = Fragment.ofItems <$> s.lower := by
  induction s using Stmt.induction with
  | assign target e =>
    simp only [Stmt.emit, Stmt.lower, e.emit_eq, bind_map_left, Lowered.takeValue_fragment,
      pure_bind, map_bind, map_pure]
    rfl
  | input target =>
    simp only [Stmt.emit, Stmt.lower, map_bind, map_pure]
    rfl
  | output e =>
    simp only [Stmt.emit, Stmt.lower, e.emit_eq, bind_map_left, Lowered.takeValue_fragment,
      pure_bind, map_bind, map_pure]
    rfl
  | ite c yes no ihyes ihno =>
    simp only [Stmt.emit, Stmt.lower, c.emit_eq, ihyes, ihno, bind_map_left,
      Lowered.takeValue_fragment, pure_bind, map_bind, map_pure]
    simp
  | loop c body ih =>
    simp only [Stmt.emit, Stmt.lower, c.emit_eq, ih, bind_map_left, Lowered.takeValue_fragment,
      pure_bind, map_bind, map_pure]
    simp
  | switch e cases otherwise ihcases ihother =>
    simp only [Stmt.emit, Stmt.lower, e.emit_eq, bind_map_left, Lowered.takeValue_fragment,
      pure_bind, map_bind, map_pure, Case.drawLabels_bind, Case.emitTests_eq,
      Stmt.emitAll_nil_of ihother]
    -- the selector was taken out, so the rest of the code goes to a fragment without a value
    simp only [Fragment.append_ofItems, Fragment.emit_ofItems, Case.emitAll_of _ ihcases,
      bind_map_left, Fragment.place_ofItems]
  | leave => rfl
  | block body ih => exact Stmt.emitAll_nil_of ih

/-- A program has the same code, or the same first fault, in both ways. -/
theorem Program.emit_eq_lower (p : Program) : p.emit = p.lower := by
  unfold Program.emit Program.lower Program.lowerItems
  rw [Stmt.emitAll_nil_of fun s _ => s.emit_eq, ← map_bind, StateT.run_map, Functor.map_map]
  rfl

end QuadCode
