import QuadCode.Proofs.Checking
import QuadCode.Proofs.Declarations

/-!
# Normal forms

Some of what a program may contain is there for its reader only: a block in a list
of statements, a block around a single statement, a cast to the type that an
expression has already. And `≤` and `≥` are short for two comparisons each. If all
this is removed, wherever it stands, the code of the program stays the same, down
to the numbers of temporaries and labels, and so does the fault of a program that
has no code.

* `Program.normalize` removes it, and `Program.Normal` says that nothing of it is
  left;
* `Lower.EqOn types` says of two steps that they cannot be told apart where declared
  names have the types that were declared. Lowering a tree and lowering its normal
  form are such steps (`Expr.lower_normalize`, `Cond.lower_normalize`,
  `Stmt.lower_normalize`).

The main statement is `normal_form_lowered_alike`.
-/

namespace QuadCode

/-! ### Normal forms of trees -/

section Normalize

variable (types : String → Option Scalar)

/-- Remove the casts to the type that an expression has already. Only if all its names are declared
does an expression have a type. -/
def Expr.normalize : Expr → Expr
  | lit l => lit l
  | var x => var x
  | arith op l r => arith op l.normalize r.normalize
  | cast ty e => if e.check types = .ok ty then e.normalize else cast ty e.normalize

/-- A relation in terms of the comparisons that the machine can make. -/
def Relation.expand : Relation → Expr → Expr → Cond
  | le, l, r => .or (.rel lt l r) (.rel eq l r)
  | ge, l, r => .or (.rel gt l r) (.rel eq l r)
  | op, l, r => .rel op l r

/-- Expand the relations of a condition and normalize its expressions. -/
def Cond.normalize : Cond → Cond
  | or l r => or l.normalize r.normalize
  | and l r => and l.normalize r.normalize
  | not c => not c.normalize
  | rel op l r => op.expand (l.normalize types) (r.normalize types)

/-- What a statement contributes to a list of statements: a block contributes its body. -/
def Stmt.splice : Stmt → List Stmt
  | .block body => body
  | s => [s]

/-- What a statement is as a branch or as the body of a loop: a block of one statement is that
statement. -/
def Stmt.unwrap : Stmt → Stmt
  | .block [s] => s
  | s => s

mutual

/-- Normalize a statement and all its parts. -/
def Stmt.normalize : Stmt → Stmt
  | .assign x e => .assign x (e.normalize types)
  | .input x => .input x
  | .output e => .output (e.normalize types)
  | .ite c yes no => .ite (c.normalize types) yes.normalize.unwrap no.normalize.unwrap
  | .loop c body => .loop (c.normalize types) body.normalize.unwrap
  | .switch e cases otherwise =>
    .switch (e.normalize types) (Case.normalizeAll cases) (Stmt.normalizeAll otherwise)
  | .leave => .leave
  | .block body => .block (Stmt.normalizeAll body)

/-- Normalize the statements of a list and splice the blocks among them. -/
def Stmt.normalizeAll : List Stmt → List Stmt
  | [] => []
  | s :: l => s.normalize.splice ++ Stmt.normalizeAll l

/-- Normalize the bodies of cases. -/
def Case.normalizeAll : List Case → List Case
  | [] => []
  | ⟨n, body⟩ :: cases => ⟨n, Stmt.normalizeAll body⟩ :: Case.normalizeAll cases

end

end Normalize

/-- Normalize the body of a program. -/
def Program.normalize (p : Program) : Program :=
  { p with body := Stmt.normalizeAll p.types p.body }

section Normal

variable (types : String → Option Scalar)

/-- No cast is to the type that its operand has already. -/
def Expr.Normal : Expr → Prop
  | lit _ => True
  | var _ => True
  | arith _ l r => l.Normal ∧ r.Normal
  | cast ty e => e.check types ≠ .ok ty ∧ e.Normal

/-- The relations are comparisons of the machine, and the expressions are normal. -/
def Cond.Normal : Cond → Prop
  | or l r => l.Normal ∧ r.Normal
  | and l r => l.Normal ∧ r.Normal
  | not c => c.Normal
  | rel op l r => op ≠ .le ∧ op ≠ .ge ∧ l.Normal types ∧ r.Normal types

/-- The statement is a block. -/
def Stmt.IsBlock : Stmt → Prop
  | .block _ => True
  | _ => False

/-- The statement is a block of one statement. -/
def Stmt.IsWrapper : Stmt → Prop
  | .block [_] => True
  | _ => False

mutual

/-- The parts of the statement are normal, and no branch or body of a loop is a block of one
statement. -/
def Stmt.Normal : Stmt → Prop
  | .assign _ e => e.Normal types
  | .input _ => True
  | .output e => e.Normal types
  | .ite c yes no => c.Normal types ∧ (¬ yes.IsWrapper ∧ yes.Normal) ∧ ¬ no.IsWrapper ∧ no.Normal
  | .loop c body => c.Normal types ∧ ¬ body.IsWrapper ∧ body.Normal
  | .switch e cases otherwise => e.Normal types ∧ Case.NormalAll cases ∧ Stmt.NormalAll otherwise
  | .leave => True
  | .block body => Stmt.NormalAll body

/-- The statements are normal, and none of them is a block. -/
def Stmt.NormalAll : List Stmt → Prop
  | [] => True
  | s :: l => (¬ s.IsBlock ∧ s.Normal) ∧ Stmt.NormalAll l

/-- The bodies of the cases are normal. -/
def Case.NormalAll : List Case → Prop
  | [] => True
  | ⟨_, body⟩ :: cases => Stmt.NormalAll body ∧ Case.NormalAll cases

end

end Normal

/-- Nothing is left in a program that normalization removes. -/
def Program.Normal (p : Program) : Prop := Stmt.NormalAll p.types p.body

variable {types : String → Option Scalar}

/-! ### Steps that cannot be told apart -/

namespace Lower

variable {α β : Type} {x y : Lower α} {f g : α → Lower β}

/-- Steps that go on from equal steps are equal if they are from where these have ended. -/
theorem bind_congr_at {s : NameSupply} (hxy : x s = y s)
    (hfg : ∀ ⦃a t⦄, x s = .ok (a, t) → f a t = g a t) : (x >>= f) s = (y >>= g) s := by
  simp only [bind, StateT.bind, Except.bind]
  rw [← hxy]
  cases hx : x s with
  | error e => rfl
  | ok r => exact hfg hx

/-- The steps are equal from every supply that agrees with the declared types. -/
def EqOn (types : String → Option Scalar) (x y : Lower α) : Prop :=
  ∀ ⦃s : NameSupply⦄, s.Agrees types → x s = y s

theorem EqOn.refl (x : Lower α) : EqOn types x x := fun _ _ => rfl

/-- The first step only draws names, so the second starts from a supply that agrees too. -/
theorem EqOn.bind (hxy : EqOn types x y) (hx : x.Adds) (hfg : ∀ a, EqOn types (f a) (g a)) :
    EqOn types (x >>= f) (y >>= g) := by
  intro s hs
  refine bind_congr_at (hxy hs) fun a t hat => ?_
  exact hfg a (hs.mono (hx hat))

end Lower

open Lower

/-! ### Expressions and conditions -/

theorem Expr.check_arith_eq_ok {op : Arith} {l r : Expr} {ty : Scalar}
    (h : (arith op l r).check types = .ok ty) :
    (∃ a, l.check types = .ok a) ∧ ∃ b, r.check types = .ok b := by
  unfold Expr.check at h
  cases hr : r.check types with
  | error e => simp [hr, bind, Except.bind] at h
  | ok b =>
    cases hl : l.check types with
    | error e => simp [hr, hl, bind, Except.bind] at h
    | ok a => exact ⟨⟨a, rfl⟩, b, rfl⟩

/-- The names of an expression that has a type are declared. -/
theorem Expr.declared_of_check {e : Expr} {ty : Scalar} (h : e.check types = .ok ty) :
    ∀ x ∈ e.names, types x ≠ none := by
  induction e generalizing ty with
  | lit l => simp [names]
  | var name =>
    intro x hx hnone
    obtain rfl := List.mem_singleton.1 hx
    simp [check, declaredType, hnone] at h
  | arith op l r ihl ihr =>
    obtain ⟨⟨a, ha⟩, b, hb⟩ := check_arith_eq_ok h
    exact List.forall_mem_append.2 ⟨ihl ha, ihr hb⟩
  | cast ty' e ih =>
    cases he : e.check types with
    | error f => simp [check, he, bind, Except.bind] at h
    | ok a => exact ih he

/-- A cast to the type that an expression has leaves no trace. -/
theorem Expr.lower_cast_eqOn {e : Expr} {ty : Scalar} (h : e.check types = .ok ty) :
    EqOn types (cast ty e).lower e.lower := by
  intro s hs
  have hreports := e.lower_reports hs fun x hx hnone => absurd hnone (declared_of_check h x hx)
  rw [h] at hreports
  obtain ⟨x, t, hx, hty⟩ := hreports.exists_ok
  rw [hx, lower]
  refine bind_eq_ok_iff.2 ⟨x, t, hx, ?_⟩
  rw [if_pos hty]
  rfl

theorem Expr.lower_normalize (e : Expr) : EqOn types (e.normalize types).lower e.lower := by
  induction e with
  | lit l => exact EqOn.refl _
  | var x => exact EqOn.refl _
  | arith op l r ihl ihr =>
    exact ihr.bind (adds_lower _) fun right => ihl.bind (adds_lower _) fun left => EqOn.refl _
  | cast ty e ih =>
    rw [normalize]
    split_ifs with h
    · intro s hs
      rw [ih hs, lower_cast_eqOn h hs]
    · exact ih.bind (adds_lower _) fun x => EqOn.refl _

theorem Expr.check_normalize (e : Expr) : (e.normalize types).check types = e.check types := by
  induction e with
  | lit l => rfl
  | var x => rfl
  | arith op l r ihl ihr => simp only [normalize, check, ihl, ihr]
  | cast ty e ih =>
    rw [normalize]
    split_ifs with h
    · rw [ih, check, h]
      rfl
    · simp only [check, ih]

theorem Expr.normal_normalize (e : Expr) : (e.normalize types).Normal types := by
  induction e with
  | lit l => trivial
  | var x => trivial
  | arith op l r ihl ihr => exact ⟨ihl, ihr⟩
  | cast ty e ih =>
    rw [normalize]
    split_ifs with h
    · exact ih
    · refine ⟨?_, ih⟩
      rwa [check_normalize]

theorem Relation.lower_expand (op : Relation) (l r : Expr) :
    (op.expand l r).lower = op.lower l r := by
  cases op <;> rfl

theorem Comparison.lower_eqOn (op : Comparison) {l r l' r' : Expr}
    (hl : EqOn types l.lower l'.lower) (hr : EqOn types r.lower r'.lower) :
    EqOn types (op.lower l r) (op.lower l' r') :=
  hr.bind (Expr.adds_lower _) fun _ => hl.bind (Expr.adds_lower _) fun _ => EqOn.refl _

theorem Relation.lower_eqOn (op : Relation) {l r l' r' : Expr}
    (hl : EqOn types l.lower l'.lower) (hr : EqOn types r.lower r'.lower) :
    EqOn types (op.lower l r) (op.lower l' r') := by
  have horEqual : ∀ strict : Comparison,
      EqOn types (strict.lowerOrEqual l r) (strict.lowerOrEqual l' r') := fun strict =>
    (Comparison.lower_eqOn .eq hl hr).bind (Comparison.adds_lower _ l r) fun _ =>
      (strict.lower_eqOn hl hr).bind (strict.adds_lower l r) fun _ => EqOn.refl _
  cases op
  case le => exact horEqual .lt
  case ge => exact horEqual .gt
  all_goals exact Comparison.lower_eqOn _ hl hr

theorem Cond.lower_normalize (c : Cond) : EqOn types (c.normalize types).lower c.lower := by
  induction c with
  | or l r ihl ihr =>
    exact ihr.bind (adds_lower _) fun right => ihl.bind (adds_lower _) fun left => EqOn.refl _
  | and l r ihl ihr =>
    exact ihr.bind (adds_lower _) fun right => ihl.bind (adds_lower _) fun left => EqOn.refl _
  | not c ih => exact ih.bind (adds_lower _) fun x => EqOn.refl _
  | rel op l r =>
    rw [normalize, Relation.lower_expand]
    exact op.lower_eqOn l.lower_normalize r.lower_normalize

theorem Cond.normal_normalize (c : Cond) : (c.normalize types).Normal types := by
  induction c with
  | or l r ihl ihr => exact ⟨ihl, ihr⟩
  | and l r ihl ihr => exact ⟨ihl, ihr⟩
  | not c ih => exact ih
  | rel op l r =>
    have hl : (l.normalize types).Normal types := l.normal_normalize
    have hr : (r.normalize types).Normal types := r.normal_normalize
    cases op <;> simp [normalize, Relation.expand, Normal, hl, hr]

/-! ### Statements -/

namespace Stmt

theorem lowerAll_singleton (s : Stmt) : lowerAll [s] = s.lower := by
  simp [lowerAll]

theorem lowerAll_append (l m : List Stmt) :
    lowerAll (l ++ m) = do
      let code ← lowerAll l
      let rest ← lowerAll m
      return code ++ rest := by
  induction l with
  | nil => simp [lowerAll]
  | cons s l ih =>
    simp only [List.cons_append, lowerAll, ih, bind_assoc, pure_bind, List.append_assoc]

theorem lowerAll_splice (s : Stmt) : lowerAll s.splice = s.lower := by
  cases s with
  | block body => rw [splice, lower]
  | _ => exact lowerAll_singleton _

theorem lower_unwrap (s : Stmt) : s.unwrap.lower = s.lower := by
  unfold unwrap
  split
  · rw [lower, lowerAll_singleton]
  · rfl

theorem lowerAll_normalizeAll_of {l : List Stmt}
    (h : ∀ s ∈ l, EqOn types (s.normalize types).lower s.lower) :
    EqOn types (lowerAll (normalizeAll types l)) (lowerAll l) := by
  induction l with
  | nil => exact EqOn.refl _
  | cons s l ih =>
    obtain ⟨hs, hl⟩ := List.forall_mem_cons.1 h
    rw [normalizeAll, lowerAll_append, lowerAll_splice]
    exact hs.bind (adds_lower _) fun code => (ih hl).bind (adds_lowerAll _) fun rest => EqOn.refl _

end Stmt

namespace Case

theorem map_number_normalizeAll (cases : List Case) :
    (normalizeAll types cases).map number = cases.map number := by
  induction cases with
  | nil => rfl
  | cons c cases ih =>
    obtain ⟨n, body⟩ := c
    exact congrArg (n :: ·) ih

theorem checkDistinct_congr {cases cases' : List Case}
    (h : cases.map number = cases'.map number) : checkDistinct cases = checkDistinct cases' := by
  unfold checkDistinct
  rw [h]

/-- The head of a switch depends on the numbers of its cases. -/
theorem dispatch_congr {cases cases' : List Case} (h : cases.map number = cases'.map number)
    (selector : Operand) (flag : String) (first : ℕ) :
    dispatch selector flag first cases = dispatch selector flag first cases' := by
  induction cases generalizing cases' first with
  | nil =>
    obtain rfl := List.map_eq_nil_iff.1 h.symm
    rfl
  | cons c cases ih =>
    obtain ⟨c', rest, rfl, hnumber, hrest⟩ := List.map_eq_cons_iff.1 h.symm
    rw [dispatch, dispatch, hnumber, ih hrest.symm]

theorem lowerDispatch_congr {cases cases' : List Case} (h : cases.map number = cases'.map number)
    (selector : Operand) (first : ℕ) :
    lowerDispatch selector first cases = lowerDispatch selector first cases' := by
  cases cases with
  | nil =>
    obtain rfl := List.map_eq_nil_iff.1 h.symm
    rfl
  | cons c cases =>
    obtain ⟨c', rest, rfl, -, -⟩ := List.map_eq_cons_iff.1 h.symm
    simp only [lowerDispatch, dispatch_congr h]

theorem lowerAll_normalizeAll_of {cases : List Case}
    (h : ∀ c ∈ cases, ∀ s ∈ c.body, EqOn types (s.normalize types).lower s.lower)
    (endLabel : Label) (first : ℕ) :
    EqOn types (lowerAll endLabel first (normalizeAll types cases))
      (lowerAll endLabel first cases) := by
  induction cases generalizing first with
  | nil => exact EqOn.refl _
  | cons c cases ih =>
    obtain ⟨n, body⟩ := c
    obtain ⟨hbody, hcases⟩ := List.forall_mem_cons.1 h
    exact (Stmt.lowerAll_normalizeAll_of hbody).bind (Stmt.adds_lowerAll _) fun code =>
      (ih hcases (first + 1)).bind (adds_lowerAll _ _ _) fun rest => EqOn.refl _

end Case

namespace Stmt

theorem lower_normalize_switch {e : Expr} {cases : List Case} {otherwise : List Stmt}
    (hcases : ∀ c ∈ cases, ∀ s ∈ c.body, EqOn types (s.normalize types).lower s.lower)
    (hother : ∀ s ∈ otherwise, EqOn types (s.normalize types).lower s.lower) :
    EqOn types ((switch e cases otherwise).normalize types).lower
      (switch e cases otherwise).lower := by
  have hnumbers : (Case.normalizeAll types cases).map Case.number = cases.map Case.number :=
    Case.map_number_normalizeAll cases
  have hlength : (Case.normalizeAll types cases).length = cases.length := by
    simpa using congrArg List.length hnumbers
  rw [normalize, lower, lower, Case.checkDistinct_congr hnumbers, hlength]
  refine e.lower_normalize.bind (Expr.adds_lower _) fun x => ?_
  refine (EqOn.refl _).bind (adds_ofExcept _) fun selector => ?_
  refine (EqOn.refl _).bind (adds_ofExcept _) fun _ => ?_
  refine (EqOn.refl _).bind adds_freshLabel fun endLabel => ?_
  refine (EqOn.refl _).bind (adds_freshLabels _) fun first => ?_
  rw [Case.lowerDispatch_congr hnumbers]
  refine (EqOn.refl _).bind (Case.adds_lowerDispatch _ _ _) fun head => ?_
  refine (lowerAll_normalizeAll_of hother).bind (adds_lowerAll _) fun otherwiseCode => ?_
  refine (Case.lowerAll_normalizeAll_of hcases endLabel first).bind (Case.adds_lowerAll _ _ _)
    fun caseCode => ?_
  exact EqOn.refl _

theorem lower_normalize (s : Stmt) : EqOn types (s.normalize types).lower s.lower := by
  induction s using Stmt.induction with
  | assign x e => exact e.lower_normalize.bind (Expr.adds_lower _) fun v => EqOn.refl _
  | input x => exact EqOn.refl _
  | output e => exact e.lower_normalize.bind (Expr.adds_lower _) fun v => EqOn.refl _
  | ite c yes no hyes hno =>
    rw [normalize, lower, lower, lower_unwrap, lower_unwrap]
    refine (EqOn.refl _).bind adds_freshLabel fun thenLabel => ?_
    refine (EqOn.refl _).bind adds_freshLabel fun elseLabel => ?_
    refine (EqOn.refl _).bind adds_freshLabel fun endLabel => ?_
    refine c.lower_normalize.bind (Cond.adds_lower _) fun test => ?_
    refine hyes.bind (adds_lower _) fun yesCode => hno.bind (adds_lower _) fun noCode => ?_
    exact EqOn.refl _
  | loop c body hbody =>
    rw [normalize, lower, lower, lower_unwrap]
    refine (EqOn.refl _).bind adds_freshLabel fun testLabel => ?_
    refine (EqOn.refl _).bind adds_freshLabel fun endLabel => ?_
    refine c.lower_normalize.bind (Cond.adds_lower _) fun test => ?_
    exact hbody.bind (adds_lower _) fun bodyCode => EqOn.refl _
  | switch e cases otherwise hcases hother => exact lower_normalize_switch hcases hother
  | leave => exact EqOn.refl _
  | block body hbody =>
    rw [normalize, lower, lower]
    exact lowerAll_normalizeAll_of hbody

theorem lowerAll_normalizeAll (l : List Stmt) :
    EqOn types (lowerAll (normalizeAll types l)) (lowerAll l) :=
  lowerAll_normalizeAll_of fun s _ => s.lower_normalize

end Stmt

/-! ### Nothing is left to remove -/

namespace Stmt

theorem normalAll_append {l m : List Stmt} (hl : NormalAll types l) (hm : NormalAll types m) :
    NormalAll types (l ++ m) := by
  induction l with
  | nil => exact hm
  | cons s l ih => exact ⟨hl.1, ih hl.2⟩

theorem normalAll_splice {s : Stmt} (h : s.Normal types) : NormalAll types s.splice := by
  cases s with
  | block body => exact h
  | _ => exact ⟨⟨id, h⟩, trivial⟩

theorem IsWrapper.isBlock {s : Stmt} (h : s.IsWrapper) : s.IsBlock := by
  cases s with
  | block body => trivial
  | _ => exact h.elim

theorem normal_unwrap {s : Stmt} (h : s.Normal types) :
    ¬ s.unwrap.IsWrapper ∧ s.unwrap.Normal types := by
  cases s with
  | block body =>
    match body, h with
    | [], h => exact ⟨id, h⟩
    | [t], ⟨⟨hblock, ht⟩, _⟩ =>
      -- what was in the block is not a block itself, so nothing is left to unwrap
      exact ⟨fun hwrapper => hblock hwrapper.isBlock, ht⟩
    | _ :: _ :: _, h => exact ⟨id, h⟩
  | _ => exact ⟨id, h⟩

theorem normalAll_normalizeAll_of {l : List Stmt} (h : ∀ s ∈ l, (s.normalize types).Normal types) :
    NormalAll types (normalizeAll types l) := by
  induction l with
  | nil => trivial
  | cons s l ih =>
    obtain ⟨hs, hl⟩ := List.forall_mem_cons.1 h
    exact normalAll_append (normalAll_splice hs) (ih hl)

end Stmt

theorem Case.normalAll_normalizeAll_of {cases : List Case}
    (h : ∀ c ∈ cases, ∀ s ∈ c.body, (s.normalize types).Normal types) :
    NormalAll types (normalizeAll types cases) := by
  induction cases with
  | nil => trivial
  | cons c cases ih =>
    obtain ⟨n, body⟩ := c
    obtain ⟨hbody, hcases⟩ := List.forall_mem_cons.1 h
    exact ⟨Stmt.normalAll_normalizeAll_of hbody, ih hcases⟩

theorem Stmt.normal_normalize (s : Stmt) : (s.normalize types).Normal types := by
  induction s using Stmt.induction with
  | assign x e => exact e.normal_normalize
  | input x => trivial
  | output e => exact e.normal_normalize
  | ite c yes no hyes hno =>
    exact ⟨c.normal_normalize, normal_unwrap hyes, normal_unwrap hno⟩
  | loop c body hbody => exact ⟨c.normal_normalize, normal_unwrap hbody⟩
  | switch e cases otherwise hcases hother =>
    exact ⟨e.normal_normalize, Case.normalAll_normalizeAll_of hcases,
      normalAll_normalizeAll_of hother⟩
  | leave => trivial
  | block body hbody => exact normalAll_normalizeAll_of hbody

/-! ### Programs -/

/-- The scope that a program declares agrees with its types. -/
theorem Program.agrees_of_declareAll {p : Program} {scope : Scope}
    (h : ({} : Scope).declareAll p.declared = .ok scope) :
    NameSupply.Agrees { scope } p.types :=
  fun x _ => p.find?_of_declareAll h x

theorem Program.lower_normalize (p : Program) : p.normalize.lower = p.lower := by
  have hitems : p.normalize.lowerItems {} = p.lowerItems {} := by
    refine bind_congr_at rfl fun _ t ht => ?_
    obtain ⟨scope, hscope, rfl⟩ := declareAll_ok ht
    exact Stmt.lowerAll_normalizeAll p.body (agrees_of_declareAll hscope)
  rw [lower, lower, StateT.run, StateT.run, hitems]

/-- **Normal forms.** The normal form of a program is normal, and it has the same code as the
program, with the same temporaries and the same labels, or the same fault. -/
theorem normal_form_lowered_alike (p : Program) :
    p.normalize.Normal ∧ p.normalize.lower = p.lower ∧
      ∀ o, p.normalize.compile o = p.compile o := by
  refine ⟨?_, p.lower_normalize, Program.compile_eq_of_lower p.lower_normalize⟩
  exact Stmt.normalAll_normalizeAll_of fun s _ => s.normal_normalize

/-- Blocks in blocks, a cast to a float that stays since `y` is not declared, and one that goes. -/
example :
    Program.normalize
        ⟨[⟨["x"], .float⟩],
          [.block [.block [], .block [.leave]],
            .loop (.rel .le (.cast .float (.var "x")) (.cast .float (.var "y")))
              (.block [.block [.input "x"]])]⟩ =
      ⟨[⟨["x"], .float⟩],
        [.leave,
          .loop (.or (.rel .lt (.var "x") (.cast .float (.var "y")))
              (.rel .eq (.var "x") (.cast .float (.var "y"))))
            (.input "x")]⟩ := by
  rfl

end QuadCode
