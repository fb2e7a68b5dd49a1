import QuadCode.Proofs.Linking

/-!
# Types of lowered code

Every name that code uses is in scope, and every instruction reads and writes its
operands as the types that they have there. So a run gives a variable only values
of its type, and no instruction has to convert what it reads.

* `Instr.WellTyped G i`, `Typed G code`: what is read and written has the right
  type in the scope `G`. More names in scope do no harm (`Typed.mono`);
* `Expr.lower_typed`, `Cond.lower_typed`, `Stmt.typesWell`: lowered code is typed
  in the scope that lowering has left;
* `World.Fits G w`: the variables of `w` have values of their types. Typed
  code keeps this (`Config.fits_of_reaches`).
-/

namespace QuadCode

open StateTransition

/-- The operand has a type in a scope. -/
def Operand.HasType (G : Scope) (ty : Scalar) : Operand → Prop
  | .var name => G.find? name = some ty
  | .lit v => v.ty = ty

@[simp] theorem Operand.hasType_var {G : Scope} {ty : Scalar} {name : String} :
    (Operand.var name).HasType G ty ↔ G.find? name = some ty := Iff.rfl

@[simp] theorem Operand.hasType_lit {G : Scope} {ty : Scalar} {v : Literal} :
    (Operand.lit v).HasType G ty ↔ v.ty = ty := Iff.rfl

@[simp] theorem Operand.hasType_zero {G : Scope} : Operand.zero.HasType G .int := rfl

theorem Operand.HasType.mono {G H : Scope} {ty : Scalar} {o : Operand} (h : o.HasType G ty)
    (hle : G ≤ H) : o.HasType H ty := by
  cases o with
  | var name => exact hle h
  | lit v => exact h

namespace Instr

variable {α β : Type}

/-- The operands that an instruction reads, with the types that it takes them for. -/
def reads : Instr α → List (Operand × Scalar)
  | copy ty _ src => [(src, ty)]
  | read _ _ => []
  | print ty src => [(src, ty)]
  | arith _ ty _ lhs rhs => [(lhs, ty), (rhs, ty)]
  | compare _ ty _ lhs rhs => [(lhs, ty), (rhs, ty)]
  | convert .float _ src => [(src, .int)]
  | convert .int _ src => [(src, .float)]
  | jump _ => []
  | jumpIfZero _ cond => [(cond, .int)]
  | halt => []

/-- The variable that an instruction writes, with the type of the value. -/
def writes? : Instr α → Option (String × Scalar)
  | copy ty dst _ => some (dst, ty)
  | read ty dst => some (dst, ty)
  | arith _ ty dst _ _ => some (dst, ty)
  | compare _ _ dst _ _ => some (dst, .int)
  | convert ty dst _ => some (dst, ty)
  | _ => none

/-- What the instruction reads and writes has the right type. -/
def WellTyped (G : Scope) (i : Instr α) : Prop :=
  (∀ r ∈ i.reads, r.1.HasType G r.2) ∧ ∀ d ∈ i.writes?, G.find? d.1 = some d.2

theorem WellTyped.mono {G H : Scope} {i : Instr α} (h : i.WellTyped G) (hle : G ≤ H) :
    i.WellTyped H :=
  ⟨fun r hr => (h.1 r hr).mono hle, fun d hd => hle (h.2 d hd)⟩

section WellTyped

variable {G : Scope} {ty : Scalar} {dst : String} {src lhs rhs : Operand}

attribute [local simp] WellTyped reads writes?

@[simp] theorem wellTyped_copy :
    (copy ty dst src : Instr α).WellTyped G ↔ src.HasType G ty ∧ G.find? dst = some ty := by
  simp

@[simp] theorem wellTyped_read :
    (read ty dst : Instr α).WellTyped G ↔ G.find? dst = some ty := by
  simp

@[simp] theorem wellTyped_print :
    (print ty src : Instr α).WellTyped G ↔ src.HasType G ty := by
  simp

@[simp] theorem wellTyped_arith {op : Arith} :
    (arith op ty dst lhs rhs : Instr α).WellTyped G ↔
      (lhs.HasType G ty ∧ rhs.HasType G ty) ∧ G.find? dst = some ty := by
  simp

@[simp] theorem wellTyped_compare {op : Comparison} :
    (compare op ty dst lhs rhs : Instr α).WellTyped G ↔
      (lhs.HasType G ty ∧ rhs.HasType G ty) ∧ G.find? dst = some .int := by
  simp

/-- A conversion is from the other type. -/
theorem wellTyped_convert_of_ne {source : Scalar} (hne : source ≠ ty)
    (hsrc : src.HasType G source) (hdst : G.find? dst = some ty) :
    (convert ty dst src : Instr α).WellTyped G := by
  cases source <;> cases ty <;> simp_all

@[simp] theorem wellTyped_jump {l : α} : (jump l : Instr α).WellTyped G := by
  simp

@[simp] theorem wellTyped_jumpIfZero {l : α} :
    (jumpIfZero l src : Instr α).WellTyped G ↔ src.HasType G .int := by
  simp

@[simp] theorem wellTyped_halt : (halt : Instr α).WellTyped G := by
  simp

end WellTyped

theorem reads_of_mapTarget {f : α → Option β} {i : Instr α} {j : Instr β}
    (h : i.mapTarget f = some j) : j.reads = i.reads ∧ j.writes? = i.writes? := by
  cases i with
  | jump l =>
    obtain ⟨n, -, hn⟩ := Option.bind_eq_some_iff.1 h
    cases hn
    exact ⟨rfl, rfl⟩
  | jumpIfZero l cond =>
    obtain ⟨n, -, hn⟩ := Option.bind_eq_some_iff.1 h
    cases hn
    exact ⟨rfl, rfl⟩
  | convert ty dst src =>
    obtain rfl := Option.some.inj h
    cases ty <;> exact ⟨rfl, rfl⟩
  | _ =>
    obtain rfl := Option.some.inj h
    exact ⟨rfl, rfl⟩

theorem WellTyped.mapTarget {G : Scope} {f : α → Option β} {i : Instr α} {j : Instr β}
    (hi : i.WellTyped G) (h : i.mapTarget f = some j) : j.WellTyped G := by
  obtain ⟨hreads, hwrites⟩ := reads_of_mapTarget h
  rwa [WellTyped, hreads, hwrites]

end Instr

/-- Every instruction of the code is well typed. -/
def Typed (G : Scope) (code : List Item) : Prop := ∀ i ∈ instrsIn code, i.WellTyped G

theorem Typed.mono {G H : Scope} {code : List Item} (h : Typed G code) (hle : G ≤ H) :
    Typed H code := fun i hi => (h i hi).mono hle

@[simp] theorem typed_nil {G : Scope} : Typed G [] := by simp [Typed]

@[simp] theorem typed_append {G : Scope} {c d : List Item} :
    Typed G (c ++ d) ↔ Typed G c ∧ Typed G d := by
  simp only [Typed, instrsIn_append, List.forall_mem_append]

@[simp] theorem typed_mark {G : Scope} {l : Label} {code : List Item} :
    Typed G (.mark l :: code) ↔ Typed G code := Iff.rfl

@[simp] theorem typed_instr {G : Scope} {i : Instr Label} {code : List Item} :
    Typed G (.instr i :: code) ↔ i.WellTyped G ∧ Typed G code := by
  simp only [Typed, instrsIn_instr, List.forall_mem_cons]

/-! ### Expressions and conditions -/

variable {s t : NameSupply}

/-- The code is typed, and so is the place of its value. -/
structure Lowered.Typed (G : Scope) (x : Lowered) : Prop where
  code : QuadCode.Typed G x.code
  value : x.operand.HasType G x.ty

theorem Lowered.Typed.mono {G H : Scope} {x : Lowered} (h : x.Typed G) (hle : G ≤ H) :
    x.Typed H := ⟨h.code.mono hle, h.value.mono hle⟩

/-- Code that leaves its value in the temporary that was drawn last. -/
theorem Lowered.typed_inVar {u : NameSupply} {ty : Scalar} {code : List Item} {i : Instr Label}
    (hcode : QuadCode.Typed u.scope code) (hi : i.WellTyped (u.freshTemp ty).2.scope) :
    (Lowered.inVar (code ++ [.instr i]) (u.freshTemp ty).1 ty).Typed (u.freshTemp ty).2.scope := by
  have hle := NameSupply.scope_mono (u.le_freshTemp ty)
  exact ⟨by simp [Lowered.inVar, hcode.mono hle, hi], u.freshTemp_find? ty⟩

theorem Value.widen_typed {v : Value} {ty : Scalar} {code : List Item} {o : Operand}
    (h : v.widen ty s = .ok ((code, o), t)) (hv : v.operand.HasType s.scope v.ty)
    (hty : v.ty = .float → ty = .float) :
    QuadCode.Typed t.scope code ∧ o.HasType t.scope ty := by
  rcases Value.widen_ok h with ⟨hint, rfl, rfl, rfl, rfl⟩ | ⟨hint, rfl, rfl, rfl⟩
  · have hle := NameSupply.scope_mono (s.le_freshTemp .float)
    rw [hint] at hv
    have hconv := Instr.wellTyped_convert_of_ne (α := Label) (by simp) (hv.mono hle)
      (s.freshTemp_find? .float)
    simp [hconv]
  · have htv : v.ty = ty := by
      cases hvt : v.ty with
      | int => exact (hint hvt).symm
      | float => exact (hty hvt).symm
    exact ⟨typed_nil, htv ▸ hv⟩

/-- The operands of an operation are typed if this holds of the expressions that they come from. -/
theorem Expr.Operands.typed {l r : Expr} {ops : QuadCode.Operands}
    (h : Expr.Operands l r s ops t)
    (hl : ∀ {s t : NameSupply} {x : Lowered}, l.lower s = .ok (x, t) → x.Typed t.scope)
    (hr : ∀ {s t : NameSupply} {x : Lowered}, r.lower s = .ok (x, t) → x.Typed t.scope) :
    QuadCode.Typed t.scope ops.code ∧ ops.lhs.HasType t.scope ops.ty ∧
      ops.rhs.HasType t.scope ops.ty := by
  obtain ⟨right, s₁, left, s₂, hright, hleft, hops⟩ := h
  obtain ⟨wl, lhs, u, wr, rhs, hwl, hwr, rfl⟩ := Lowered.balance_ok hops
  have hle₂ := NameSupply.scope_mono (l.adds_lower hleft)
  have hleu := NameSupply.scope_mono (Value.adds_widen _ _ hwl)
  have hlet := NameSupply.scope_mono (Value.adds_widen _ _ hwr)
  have htr := (hr hright).mono hle₂
  have htl := hl hleft
  obtain ⟨hcl, hol⟩ := Value.widen_typed hwl htl.value fun hf => by simp [Lowered.ty, hf]
  obtain ⟨hcr, hor⟩ := Value.widen_typed hwr (htr.value.mono hleu) fun hf => by
    simp [Lowered.ty, hf]
  have hle := hleu.trans hlet
  refine ⟨?_, hol.mono hlet, hor⟩
  simp [htr.code.mono hle, htl.code.mono hle, hcl.mono hlet, hcr]

theorem Expr.lower_typed {e : Expr} {x : Lowered} (h : e.lower s = .ok (x, t)) :
    x.Typed t.scope := by
  induction e generalizing s x t with
  | lit v =>
    obtain ⟨rfl, rfl⟩ := Expr.lower_lit_ok h
    exact ⟨typed_nil, rfl⟩
  | var name =>
    obtain ⟨hty, hcode, hop, rfl⟩ := Expr.lower_var_ok h
    exact ⟨by simp [hcode], by simpa [hop] using hty⟩
  | arith op l r ihl ihr =>
    obtain ⟨ops, u, hops, rfl, rfl⟩ := Expr.lower_arith_ok h
    obtain ⟨hcode, hlhs, hrhs⟩ := hops.typed ihl ihr
    have hle := NameSupply.scope_mono (u.le_freshTemp ops.ty)
    refine Lowered.typed_inVar hcode ?_
    simp [hlhs.mono hle, hrhs.mono hle]
  | cast ty e ih =>
    rcases Expr.lower_cast_ok h with ⟨-, hx⟩ | ⟨y, u, hy, hne, rfl, rfl⟩
    · exact ih hx
    · obtain ⟨hcode, hval⟩ := ih hy
      have hval' := hval.mono (NameSupply.scope_mono (u.le_freshTemp ty))
      exact Lowered.typed_inVar hcode
        (Instr.wellTyped_convert_of_ne hne hval' (u.freshTemp_find? ty))

/-- Code for a truth value. -/
def Lowered.TypedFlag (G : Scope) (x : Lowered) : Prop := x.Typed G ∧ x.ty = .int

theorem Lowered.TypedFlag.mono {G H : Scope} {x : Lowered} (h : x.TypedFlag G) (hle : G ≤ H) :
    x.TypedFlag H := ⟨h.1.mono hle, h.2⟩

theorem Lowered.TypedFlag.operand {G : Scope} {x : Lowered} (h : x.TypedFlag G) :
    x.operand.HasType G .int := h.2 ▸ h.1.value

theorem Comparison.lower_typed {op : Comparison} {l r : Expr} {x : Lowered}
    (h : op.lower l r s = .ok (x, t)) : x.TypedFlag t.scope := by
  obtain ⟨ops, u, hops, rfl, rfl⟩ := Comparison.lower_ok h
  obtain ⟨hcode, hlhs, hrhs⟩ := hops.typed Expr.lower_typed Expr.lower_typed
  have hle := NameSupply.scope_mono (u.le_freshTemp .int)
  refine ⟨Lowered.typed_inVar hcode ?_, rfl⟩
  simp [hlhs.mono hle, hrhs.mono hle]

theorem Lowered.disjoin_typed {left right x : Lowered} (h : left.disjoin right s = .ok (x, t))
    (hl : left.TypedFlag s.scope) (hr : right.TypedFlag s.scope) : x.TypedFlag t.scope := by
  obtain ⟨rfl, rfl⟩ := Lowered.disjoin_ok h
  have hle₁ := NameSupply.scope_mono (s.le_freshTemp .int)
  have hle₂ := NameSupply.scope_mono ((s.freshTemp .int).2.le_freshTemp .int)
  have hl' := hl.mono (hle₁.trans hle₂)
  have hr' := hr.mono (hle₁.trans hle₂)
  have hsum := hle₂ (s.freshTemp_find? .int)
  refine ⟨⟨?_, NameSupply.freshTemp_find? _ _⟩, rfl⟩
  simp [hl'.1.code, hr'.1.code, hl'.operand, hr'.operand, hsum]

theorem Lowered.conjoin_typed {left right x : Lowered} (h : left.conjoin right s = .ok (x, t))
    (hl : left.TypedFlag s.scope) (hr : right.TypedFlag s.scope) : x.TypedFlag t.scope := by
  obtain ⟨rfl, rfl⟩ := Lowered.conjoin_ok h
  have hle := NameSupply.scope_mono (s.le_freshTemp .int)
  have hl' := hl.mono hle
  have hr' := hr.mono hle
  refine ⟨⟨?_, NameSupply.freshTemp_find? _ _⟩, rfl⟩
  simp [hl'.1.code, hr'.1.code, hl'.operand, hr'.operand]

theorem Lowered.negate_typed {x y : Lowered} (h : x.negate s = .ok (y, t))
    (hx : x.TypedFlag s.scope) : y.TypedFlag t.scope := by
  obtain ⟨rfl, rfl⟩ := Lowered.negate_ok h
  have hx' := hx.mono (NameSupply.scope_mono (s.le_freshTemp .int))
  refine ⟨Lowered.typed_inVar hx.1.code ?_, rfl⟩
  simp [hx'.operand]

theorem Comparison.lowerOrEqual_typed {strict : Comparison} {l r : Expr} {x : Lowered}
    (h : strict.lowerOrEqual l r s = .ok (x, t)) : x.TypedFlag t.scope := by
  simp only [Comparison.lowerOrEqual, Lower.bind_eq_ok_iff] at h
  obtain ⟨equal, s₁, hequal, less, s₂, hless, hx⟩ := h
  have hle := NameSupply.scope_mono (strict.adds_lower l r hless)
  exact Lowered.disjoin_typed hx (Comparison.lower_typed hless)
    ((Comparison.lower_typed hequal).mono hle)

theorem Relation.lower_typed {op : Relation} {l r : Expr} {x : Lowered}
    (h : op.lower l r s = .ok (x, t)) : x.TypedFlag t.scope := by
  cases op
  case le => exact Comparison.lowerOrEqual_typed h
  case ge => exact Comparison.lowerOrEqual_typed h
  all_goals exact Comparison.lower_typed h

theorem Cond.lower_typed {c : Cond} {x : Lowered} (h : c.lower s = .ok (x, t)) :
    x.TypedFlag t.scope := by
  induction c generalizing s x t with
  | or l r ihl ihr =>
    simp only [Cond.lower, Lower.bind_eq_ok_iff] at h
    obtain ⟨right, s₁, hr, left, s₂, hl, hx⟩ := h
    exact Lowered.disjoin_typed hx (ihl hl)
      ((ihr hr).mono (NameSupply.scope_mono (l.adds_lower hl)))
  | and l r ihl ihr =>
    simp only [Cond.lower, Lower.bind_eq_ok_iff] at h
    obtain ⟨right, s₁, hr, left, s₂, hl, hx⟩ := h
    exact Lowered.conjoin_typed hx (ihl hl)
      ((ihr hr).mono (NameSupply.scope_mono (l.adds_lower hl)))
  | not c ih =>
    simp only [Cond.lower, Lower.bind_eq_ok_iff] at h
    obtain ⟨y, u, hy, hx⟩ := h
    exact Lowered.negate_typed hx (ih hy)
  | rel op l r => exact Relation.lower_typed h

/-! ### Statements -/

/-- Storing a value is typed if the value and the target are. -/
theorem Value.store_typed {G : Scope} {v : Value} {target : String} {ty : Scalar}
    {i : Instr Label} (h : v.store target ty = .ok i) (hv : v.operand.HasType G v.ty)
    (hty : G.find? target = some ty) : i.WellTyped G := by
  obtain ⟨o, from_⟩ := v
  cases from_ <;> cases ty <;> simp only [Value.store, Except.ok.injEq, reduceCtorEq] at h
  case int.float =>
    subst h
    exact Instr.wellTyped_convert_of_ne (by simp) hv hty
  all_goals
    subst h
    exact Instr.wellTyped_copy.2 ⟨hv, hty⟩

namespace Case

theorem dispatch_typed {G : Scope} {selector : Operand} {dst : String} {first : ℕ}
    {cases : List Case} (hsel : selector.HasType G .int) (hdst : G.find? dst = some .int) :
    Typed G (dispatch selector dst first cases) := by
  induction cases generalizing first with
  | nil => exact typed_nil
  | cons c cases ih =>
    simp [dispatch, ih, hsel, hdst, Literal.ty]

theorem lowerDispatch_typed {selector : Operand} {first : ℕ} {cases : List Case}
    {code : List Item} (h : lowerDispatch selector first cases s = .ok (code, t))
    (hsel : selector.HasType s.scope .int) : Typed t.scope code := by
  cases cases with
  | nil =>
    obtain ⟨rfl, rfl⟩ := lowerDispatch_nil_ok h
    exact typed_nil
  | cons c cases =>
    obtain ⟨rfl, rfl⟩ := lowerDispatch_cons_ok h
    exact dispatch_typed (hsel.mono (NameSupply.scope_mono (s.le_freshTemp .int)))
      (s.freshTemp_find? .int)

end Case

/-- Lowering a statement gives typed code. -/
def Stmt.TypesWell (st : Stmt) : Prop := ∀ ⦃s code t⦄, st.lower s = .ok (code, t) →
  Typed t.scope code

theorem Stmt.lowerAll_typed_of {l : List Stmt} (hl : ∀ st ∈ l, st.TypesWell) {code : List Item}
    (h : lowerAll l s = .ok (code, t)) : Typed t.scope code := by
  induction l generalizing s code with
  | nil =>
    obtain ⟨rfl, -⟩ := lowerAll_nil_ok h
    exact typed_nil
  | cons st l ih =>
    obtain ⟨hst, hl⟩ := List.forall_mem_cons.1 hl
    obtain ⟨first, u, rest, hfirst, hrest, rfl⟩ := lowerAll_cons_ok h
    have hle := NameSupply.scope_mono (adds_lowerAll l hrest)
    exact typed_append.2 ⟨(hst hfirst).mono hle, ih hl hrest⟩

theorem Case.lowerAll_typed_of {cases : List Case}
    (hcases : ∀ c ∈ cases, ∀ st ∈ c.body, st.TypesWell) {endLabel : Label} {first : ℕ}
    {code : List Item} (h : lowerAll endLabel first cases s = .ok (code, t)) :
    Typed t.scope code := by
  induction cases generalizing s first code with
  | nil =>
    obtain ⟨rfl, -⟩ := lowerAll_nil_ok h
    exact typed_nil
  | cons c cases ih =>
    obtain ⟨number, body⟩ := c
    obtain ⟨hbody, hcases⟩ := List.forall_mem_cons.1 hcases
    obtain ⟨bodyCode, u, rest, hb, hrest, rfl⟩ := lowerAll_cons_ok h
    have hle := NameSupply.scope_mono (adds_lowerAll _ _ cases hrest)
    have hbodyCode := (Stmt.lowerAll_typed_of (l := body) hbody hb).mono hle
    simp [hbodyCode, ih hcases hrest]

namespace Stmt

theorem typesWell_ite {c : Cond} {yes no : Stmt} (hyes : yes.TypesWell) (hno : no.TypesWell) :
    (ite c yes no).TypesWell := by
  intro s code t h
  obtain ⟨test, s₁, yesCode, s₂, noCode, hc, hy, hn, rfl⟩ := lower_ite_ok h
  have hle₂ := NameSupply.scope_mono (yes.adds_lower hy)
  have hle := NameSupply.scope_mono (no.adds_lower hn)
  have htest := (Cond.lower_typed hc).mono (hle₂.trans hle)
  simp [htest.1.code, htest.operand, (hyes hy).mono hle, hno hn]

theorem typesWell_loop {c : Cond} {body : Stmt} (hbody : body.TypesWell) :
    (loop c body).TypesWell := by
  intro s code t h
  obtain ⟨test, s₁, bodyCode, hc, hb, rfl⟩ := lower_loop_ok h
  have htest := (Cond.lower_typed hc).mono (NameSupply.scope_mono (body.adds_lower hb))
  simp [htest.1.code, htest.operand, hbody hb]

theorem typesWell_switch {e : Expr} {cases : List Case} {otherwise : List Stmt}
    (hcases : ∀ c ∈ cases, ∀ st ∈ c.body, st.TypesWell)
    (hother : ∀ st ∈ otherwise, st.TypesWell) : (switch e cases otherwise).TypesWell := by
  intro s code t h
  obtain ⟨x, s₁, head, s₂, otherCode, s₃, caseCode, hx, hint, -, hhead, ho, hca, rfl⟩ :=
    lower_switch_ok h
  have hle₂ := NameSupply.scope_mono (Case.adds_lowerDispatch _ _ _ hhead)
  have hle₃ := NameSupply.scope_mono (adds_lowerAll _ ho)
  have hle := NameSupply.scope_mono (Case.adds_lowerAll _ _ _ hca)
  have hxt := Expr.lower_typed hx
  have hheadt := Case.lowerDispatch_typed hhead (hint ▸ hxt.value)
  have hothert := lowerAll_typed_of hother ho
  have hcaset := Case.lowerAll_typed_of hcases hca
  have hxcode : Typed t.scope x.code := hxt.code.mono (hle₂.trans (hle₃.trans hle))
  simp [hxcode, hheadt.mono (hle₃.trans hle), hothert.mono hle, hcaset]

/-- The code of a statement is typed in the scope that lowering has left. -/
theorem typesWell (st : Stmt) : st.TypesWell := by
  induction st using Stmt.induction with
  | assign target e =>
    intro s code t h
    obtain ⟨x, ty, i, hx, hty, hi, rfl⟩ := lower_assign_ok h
    have hxt := Expr.lower_typed hx
    simp [hxt.code, Value.store_typed hi hxt.value hty]
  | input target =>
    intro s code t h
    obtain ⟨ty, hty, rfl, rfl⟩ := lower_input_ok h
    simp [hty]
  | output e =>
    intro s code t h
    obtain ⟨x, hx, rfl⟩ := lower_output_ok h
    have hxt := Expr.lower_typed hx
    simp [hxt.code, hxt.value]
  | ite c yes no hyes hno => exact typesWell_ite hyes hno
  | loop c body hbody => exact typesWell_loop hbody
  | switch e cases otherwise hcases hother => exact typesWell_switch hcases hother
  | leave => exact fun s code t h => absurd h not_lower_leave_ok
  | block body hbody => exact fun s code t h => lowerAll_typed_of hbody h

end Stmt

/-! ### Runs of typed code -/

/-- The variables that have a type in the scope have no values of the other type. -/
def World.Fits (G : Scope) (w : World) : Prop :=
  ∀ ⦃x v ty⦄, w.store x = some v → G.find? x = some ty → v.ty = ty

theorem World.Fits.ty_of_value {G : Scope} {w : World} (hw : w.Fits G) {o : Operand}
    {ty : Scalar} (ho : o.HasType G ty) {v : Literal} (hv : w.value o = some v) : v.ty = ty := by
  cases o with
  | var name => exact hw hv ho
  | lit u =>
    obtain rfl := Option.some.inj hv
    exact ho

theorem World.ty_fetch {N : Numerics} {w : World} {ty : Scalar} {o : Operand} {v : Literal}
    (h : w.fetch N ty o = some v) : v.ty = ty := by
  obtain ⟨u, -, hu⟩ := Option.bind_eq_some_iff.1 h
  exact N.ty_of_convert hu

namespace Instr

variable {α : Type} {N : Numerics} {w u : World} {i : Instr α} {control : Control α}

/-- An instruction leaves the store alone, or it writes a value of the type that it says. The value
is computed or comes from the input. -/
theorem effect_of_exec (h : i.exec N w = some (control, u)) :
    (i.writes? = none ∧ (u = w ∨ ∃ v, u = w.print v)) ∨ ∃ d, i.writes? = some d ∧
      ((∃ v, v.ty = d.2 ∧ u = w.set d.1 v) ∨ w.read N d.2 d.1 = some u) := by
  cases i with
  | jump l =>
    obtain ⟨-, rfl⟩ := Prod.mk.inj (Option.some.inj h)
    exact Or.inl ⟨rfl, Or.inl rfl⟩
  | halt =>
    obtain ⟨-, rfl⟩ := Prod.mk.inj (Option.some.inj h)
    exact Or.inl ⟨rfl, Or.inl rfl⟩
  | jumpIfZero l cond =>
    obtain ⟨v, -, he⟩ := Option.bind_eq_some_iff.1 h
    obtain ⟨-, rfl⟩ := Prod.mk.inj (Option.some.inj he)
    exact Or.inl ⟨rfl, Or.inl rfl⟩
  | print ty src =>
    obtain ⟨v, -, he⟩ := Option.bind_eq_some_iff.1 h
    obtain ⟨-, rfl⟩ := Prod.mk.inj (Option.some.inj he)
    exact Or.inl ⟨rfl, Or.inr ⟨v, rfl⟩⟩
  | read ty dst =>
    obtain ⟨u', hread, he⟩ := Option.bind_eq_some_iff.1 h
    obtain ⟨-, rfl⟩ := Prod.mk.inj (Option.some.inj he)
    exact Or.inr ⟨(dst, ty), rfl, Or.inr hread⟩
  | copy ty dst src =>
    obtain ⟨v, hv, he⟩ := Option.bind_eq_some_iff.1 h
    obtain ⟨-, rfl⟩ := Prod.mk.inj (Option.some.inj he)
    exact Or.inr ⟨(dst, ty), rfl, Or.inl ⟨v, World.ty_fetch hv, rfl⟩⟩
  | convert ty dst src =>
    obtain ⟨v, hv, he⟩ := Option.bind_eq_some_iff.1 h
    obtain ⟨-, rfl⟩ := Prod.mk.inj (Option.some.inj he)
    exact Or.inr ⟨(dst, ty), rfl, Or.inl ⟨v, World.ty_fetch hv, rfl⟩⟩
  | arith op ty dst lhs rhs =>
    simp only [exec, Option.bind_eq_bind, Option.bind_eq_some_iff, Option.pure_def,
      Option.some.injEq, Prod.mk.injEq] at h
    obtain ⟨a, ha, b, -, v, hv, -, rfl⟩ := h
    have hty : v.ty = ty := (N.ty_of_arith hv).trans (World.ty_fetch ha)
    exact Or.inr ⟨(dst, ty), rfl, Or.inl ⟨v, hty, rfl⟩⟩
  | compare op ty dst lhs rhs =>
    simp only [exec, Option.bind_eq_bind, Option.bind_eq_some_iff, Option.pure_def,
      Option.some.injEq, Prod.mk.injEq] at h
    obtain ⟨a, -, b, -, p, -, -, rfl⟩ := h
    exact Or.inr ⟨(dst, .int), rfl, Or.inl ⟨.int (flag p), rfl, rfl⟩⟩

/-- An instruction changes the store at the variable that it writes only. -/
theorem store_of_exec (h : i.exec N w = some (control, u)) :
    (i.writes? = none ∧ u.store = w.store) ∨ ∃ d v, i.writes? = some d ∧ v.ty = d.2 ∧
      u.store = Function.update w.store d.1 (some v) := by
  rcases effect_of_exec h with ⟨hd, rfl | ⟨v, rfl⟩⟩ | ⟨d, hd, ⟨v, hv, rfl⟩ | hread⟩
  · exact Or.inl ⟨hd, rfl⟩
  · exact Or.inl ⟨hd, rfl⟩
  · exact Or.inr ⟨d, v, hd, hv, rfl⟩
  · obtain ⟨rest, v, hv, rfl⟩ := World.exists_of_read hread
    exact Or.inr ⟨d, v, hd, hv, rfl⟩

/-- A well typed instruction keeps the types of the values in any part `D` of the scope, and
variables without a type. -/
theorem WellTyped.fits_of_exec {D G : Scope} (hi : i.WellTyped G) (hle : D ≤ G) (hw : w.Fits D)
    (h : i.exec N w = some (control, u)) :
    u.Fits D ∧ ∀ y, G.find? y = none → u.store y = w.store y := by
  rcases store_of_exec h with ⟨-, hstore⟩ | ⟨d, v, hd, hv, hstore⟩
  · exact ⟨fun x v ty hx hty => hw (hstore ▸ hx) hty, fun y _ => by rw [hstore]⟩
  · have hdst := hi.2 d hd
    constructor
    · intro x v' ty hx hty
      rw [hstore, Function.update_apply] at hx
      split_ifs at hx with hxd
      · have hG : G.find? x = some ty := hle hty
        rw [hxd, hdst] at hG
        rw [← Option.some.inj hx, hv, Option.some.inj hG]
      · exact hw hx hty
    · intro y hy
      rw [hstore, Function.update_of_ne]
      rintro rfl
      rw [hdst] at hy
      cases hy

end Instr

/-- A run of well typed code keeps the types of the values in any part `D` of the scope, and
variables without a type. -/
theorem Config.fits_of_reaches {N : Numerics} {D G : Scope} {code : List (Instr ℕ)}
    (hcode : ∀ i ∈ code, i.WellTyped G) (hle : D ≤ G) {c d : Config} (hc : c.world.Fits D)
    (h : Reaches (Config.step N code) c d) :
    d.world.Fits D ∧ ∀ y, G.find? y = none → d.world.store y = c.world.store y := by
  induction h with
  | refl => exact ⟨hc, fun y _ => rfl⟩
  | tail _ hstep ih =>
    obtain ⟨hfits, hrest⟩ := ih
    obtain ⟨i, control, hi, hexec⟩ := Config.exec_of_step hstep
    have hwt := hcode i (List.mem_of_getElem? hi)
    obtain ⟨hfits', hrest'⟩ := hwt.fits_of_exec hle hfits hexec
    exact ⟨hfits', fun y hy => (hrest' y hy).trans (hrest y hy)⟩

/-- Linking keeps code typed. -/
theorem Fragment.wellTyped_of_link {G : Scope} {f : Fragment} {signature : String}
    {x : Executable} (h : f.link signature = .ok x) (hf : Typed G f.items) :
    ∀ j ∈ x.instrs, j.WellTyped G := by
  intro j hj
  obtain ⟨i, hi, hij⟩ := exists_of_mem_link h hj
  refine Instr.WellTyped.mapTarget ?_ hij
  rcases List.mem_append.1 hi with hi | hi
  · exact hf i hi
  · obtain rfl := List.mem_singleton.1 hi
    exact Instr.wellTyped_halt

/-- **Type soundness.** Lowering a program leaves a scope that has the declared variables with their
types, and temporaries. The code is well typed in it, and however the linked code is run from a
store that fits the scope, the store goes on to fit it and no operand is read as a number of the
other type. -/
theorem lowered_code_type_sound {p : Program} {items : List Item} {t : NameSupply}
    (h : p.lowerItems.run {} = .ok (items, t)) :
    (∀ x ty, (x, ty) ∈ p.declared → t.scope.find? x = some ty) ∧
    (∀ x, t.scope.find? x ≠ none → (∀ ty, (x, ty) ∉ p.declared) → ∃ n, x = tempName n) ∧
    Typed t.scope items ∧
    ∀ signature, ∃ x, Fragment.link { items } signature = .ok x ∧
      (∀ i ∈ x.instrs, i.WellTyped t.scope) ∧
      ∀ (N : Numerics) (w : World) (c : Config), w.Fits t.scope →
        Reaches (Config.step N x.instrs) ⟨0, w⟩ c →
          c.world.Fits t.scope ∧
          (∀ y, t.scope.find? y = none → c.world.store y = w.store y) ∧
          ∀ i, x.instrs[c.line]? = some i → ∀ r ∈ i.reads, ∀ v,
            c.world.value r.1 = some v → v.ty = r.2 := by
  obtain ⟨scope, hscope, hbody⟩ := Program.lowerItems_ok h
  have hdraws := Stmt.adds_lowerAll p.body hbody
  have hdeclared : ∀ {x ty}, scope.find? x = some ty ↔ (x, ty) ∈ p.declared := by
    intro x ty
    simp [Scope.find?_of_declareAll hscope]
  have htyped : Typed t.scope items := Stmt.lowerAll_typed_of (fun st _ => st.typesWell) hbody
  refine ⟨fun x ty hx => hdraws.scope (hdeclared.2 hx), fun x hx hnot => ?_, htyped,
    fun signature => ?_⟩
  · refine hdraws.temp (Option.eq_none_iff_forall_ne_some.2 fun ty hty => ?_) hx
    exact hnot ty (hdeclared.1 hty)
  · have hlower : p.lower = .ok { items } := by rw [Program.lower, h]; rfl
    obtain ⟨x, hx⟩ := Program.exists_link hlower signature
    have hwt := Fragment.wellTyped_of_link hx htyped
    refine ⟨x, hx, hwt, fun N w c hw hc => ?_⟩
    obtain ⟨hfits, hrest⟩ := Config.fits_of_reaches hwt le_rfl hw hc
    exact ⟨hfits, hrest, fun i hi r hr v hv =>
      hfits.ty_of_value ((hwt i (List.mem_of_getElem? hi)).1 r hr) hv⟩

/-- Count a float up to an integer. -/
def Program.countUp : Program where
  declarations := [⟨["n"], .int⟩, ⟨["x"], .float⟩]
  body := [.loop (.rel .lt (.var "x") (.var "n"))
    (.assign "x" (.arith .add (.var "x") (.lit (.int 1))))]

/-- The lines that it becomes. -/
def Executable.countUp : Executable where
  instrs := [
    .convert .float "_t0" (.var "n"),
    .compare .lt .float "_t1" (.var "x") (.var "_t0"),
    .jumpIfZero 7 (.var "_t1"),
    .convert .float "_t2" (.lit (.int 1)),
    .arith .add .float "_t3" (.var "x") (.var "_t2"),
    .copy .float "x" (.var "_t3"),
    .jump 0,
    .halt]
  signature := "cpq 0.1.0"

/-- Once round the loop and out of it, with values of both types in the temporaries. -/
theorem lowered_code_type_sound_count_up :
    let w : World := ⟨Function.update (Function.update (fun _ => none) "n" (some (.int 1))) "x"
      (some (.float ⟨0⟩)), [], []⟩
    ∃ items t c, Program.countUp.lowerItems.run {} = .ok (items, t) ∧ Typed t.scope items ∧
      Fragment.link { items } "cpq 0.1.0" = .ok .countUp ∧ w.Fits t.scope ∧
      Reaches (Config.step .words Executable.countUp.instrs) ⟨0, w⟩ c ∧
      c.Halted Executable.countUp.instrs ∧ c.world.Fits t.scope ∧
      t.scope.find? "_t0" = some .float ∧ c.world.store "_t0" = some (.float ⟨1⟩) ∧
      t.scope.find? "_t1" = some .int ∧ c.world.store "_t1" = some (.int 0) := by
  intro w
  have hbuild : Program.countUp.build = .ok .countUp := by decide +kernel
  obtain ⟨f, hf, hlink⟩ := Program.build_ok hbuild
  obtain ⟨t, ht⟩ := Program.lower_ok hf
  obtain ⟨hdeclared, -, htyped, hsound⟩ := lowered_code_type_sound ht
  obtain ⟨x, hx, -, hrun⟩ := hsound "cpq 0.1.0"
  obtain rfl := Except.ok.inj (hx.symm.trans hlink)
  have htemps : (Program.countUp.lowerItems.run {}).toOption.map
      (fun r => (r.2.scope.find? "_t0", r.2.scope.find? "_t1")) =
        some (some .float, some .int) := by decide +kernel
  rw [ht] at htemps
  obtain ⟨h0, h1⟩ := Prod.mk.inj (Option.some.inj htemps)
  have hw : w.Fits t.scope := by
    intro y v ty hy hty
    simp only [w, Function.update_apply] at hy
    split_ifs at hy with hyx hyn
    · rw [hyx, hdeclared "x" .float (by decide)] at hty
      rw [← Option.some.inj hy, ← Option.some.inj hty]
      rfl
    · rw [hyn, hdeclared "n" .int (by decide)] at hty
      rw [← Option.some.inj hy, ← Option.some.inj hty]
      rfl
  obtain ⟨c, hreach, hhalted, hc0, hc1⟩ :
      ∃ c, Reaches (Config.step .words Executable.countUp.instrs) ⟨0, w⟩ c ∧
        c.Halted Executable.countUp.instrs ∧ c.world.store "_t0" = some (.float ⟨1⟩) ∧
        c.world.store "_t1" = some (.int 0) :=
    ⟨_, .head rfl (.head rfl (.head rfl (.head rfl (.head rfl (.head rfl (.head rfl (.head rfl
      (.head rfl (.head rfl .refl))))))))), rfl, rfl, rfl⟩
  exact ⟨f.items, t, c, ht, htyped, hx, hw, hreach, hhalted, (hrun .words w c hw hreach).1,
    h0, hc0, h1, hc1⟩

end QuadCode
