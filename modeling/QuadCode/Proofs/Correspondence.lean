import QuadCode.Proofs.Linking

/-!
# Compilations side by side

Two compilations run side by side. Their trees have one shape, the names in them
correspond one to one and so do the literals. Then both draw the same temporaries
and the same labels, and they end alike: with code of one shape, or with faults
about names that correspond.

* `Correspondence` says which names and which literals correspond;
* `Stmt.Like K`, `Program.Like K`: trees that differ in corresponding names and
  literals only. `Instr.Like K` and `Item.Like K` are the same for code, where
  temporaries correspond to themselves;
* `NameSupply.Like K`: supplies that cannot be told apart by corresponding names;
* `Lower.Alike K`: steps that take such supplies to such supplies and end alike.
  All of lowering does, by `Expr.lower_alike`, `Cond.lower_alike` and
  `Stmt.lower_alike`.
-/

namespace QuadCode

/-- Which names and which literals of two programs stand for each other. -/
structure Correspondence where
  name : String → String → Prop
  literal : Literal → Literal → Prop
  eq_iff : ∀ {x x' y y'}, name x y → name x' y' → (x = x' ↔ y = y')
  temp_iff : ∀ {x y}, name x y → ∀ n, x = tempName n ↔ y = tempName n
  int : ∀ {l}, l.ty = .int → literal l l
  ty_eq : ∀ {l m}, literal l m → l.ty = m.ty

/-- A correspondence of names under which literals stay as they are. -/
def Correspondence.ofNames (name : String → String → Prop)
    (eq_iff : ∀ {x x' y y'}, name x y → name x' y' → (x = x' ↔ y = y'))
    (temp_iff : ∀ {x y}, name x y → ∀ n, x = tempName n ↔ y = tempName n) : Correspondence where
  name := name
  literal := Eq
  eq_iff := eq_iff
  temp_iff := temp_iff
  int _ := rfl
  ty_eq := congrArg Literal.ty

variable (K : Correspondence)

/-! ### Trees -/

/-- The expressions differ in corresponding names and literals only. -/
def Expr.Like : Expr → Expr → Prop
  | lit l, lit m => K.literal l m
  | var x, var y => K.name x y
  | arith o a b, arith p c d => o = p ∧ a.Like c ∧ b.Like d
  | cast s a, cast t b => s = t ∧ a.Like b
  | _, _ => False

/-- The conditions differ in corresponding names and literals only. -/
def Cond.Like : Cond → Cond → Prop
  | or a b, or c d => a.Like c ∧ b.Like d
  | and a b, and c d => a.Like c ∧ b.Like d
  | not a, not b => a.Like b
  | rel r a b, rel s c d => r = s ∧ a.Like K c ∧ b.Like K d
  | _, _ => False

mutual

/-- The statements differ in corresponding names and literals only. -/
def Stmt.Like : Stmt → Stmt → Prop
  | .assign x a, .assign y b => K.name x y ∧ a.Like K b
  | .input x, .input y => K.name x y
  | .output a, .output b => a.Like K b
  | .ite c s t, .ite d u v => c.Like K d ∧ s.Like u ∧ t.Like v
  | .loop c s, .loop d t => c.Like K d ∧ s.Like t
  | .switch a cs s, .switch b ds t => a.Like K b ∧ Case.LikeAll cs ds ∧ Stmt.LikeAll s t
  | .leave, .leave => True
  | .block s, .block t => Stmt.LikeAll s t
  | _, _ => False

/-- The statements of two lists differ in corresponding names and literals only. -/
def Stmt.LikeAll : List Stmt → List Stmt → Prop
  | [], [] => True
  | s :: l, t :: m => s.Like t ∧ Stmt.LikeAll l m
  | _, _ => False

/-- The cases have the same numbers, and their bodies differ in corresponding names and literals
only. -/
def Case.LikeAll : List Case → List Case → Prop
  | [], [] => True
  | ⟨m, s⟩ :: cs, ⟨n, t⟩ :: ds => m = n ∧ Stmt.LikeAll s t ∧ Case.LikeAll cs ds
  | _, _ => False

end

/-- The programs differ in corresponding names and literals only. -/
def Program.Like (p q : Program) : Prop :=
  List.Forall₂ (fun v w => K.name v.1 w.1 ∧ v.2 = w.2) p.declared q.declared ∧
    Stmt.LikeAll K p.body q.body

/-! ### Code and faults -/

/-- The names correspond, or they are one temporary. -/
def Correspondence.Written (x y : String) : Prop :=
  K.name x y ∨ ∃ n, x = tempName n ∧ y = tempName n

/-- The operands are corresponding names or literals. -/
def Operand.Like : Operand → Operand → Prop
  | var x, var y => K.Written x y
  | lit l, lit m => K.literal l m
  | _, _ => False

/-- The instructions differ in corresponding names and literals only. -/
inductive Instr.Like {α : Type} : Instr α → Instr α → Prop where
  | copy {d d' : String} {o o' : Operand} (ty : Scalar) : K.Written d d' → o.Like K o' →
      Instr.Like (.copy ty d o) (.copy ty d' o')
  | read {d d' : String} (ty : Scalar) : K.Written d d' → Instr.Like (.read ty d) (.read ty d')
  | print {o o' : Operand} (ty : Scalar) : o.Like K o' → Instr.Like (.print ty o) (.print ty o')
  | arith {d d' : String} {l r l' r' : Operand} (op : Arith) (ty : Scalar) : K.Written d d' →
      l.Like K l' → r.Like K r' → Instr.Like (.arith op ty d l r) (.arith op ty d' l' r')
  | compare {d d' : String} {l r l' r' : Operand} (op : Comparison) (ty : Scalar) :
      K.Written d d' → l.Like K l' → r.Like K r' →
      Instr.Like (.compare op ty d l r) (.compare op ty d' l' r')
  | convert {d d' : String} {o o' : Operand} (ty : Scalar) : K.Written d d' → o.Like K o' →
      Instr.Like (.convert ty d o) (.convert ty d' o')
  | jump (target : α) : Instr.Like (.jump target) (.jump target)
  | jumpIfZero {o o' : Operand} (target : α) : o.Like K o' →
      Instr.Like (.jumpIfZero target o) (.jumpIfZero target o')
  | halt : Instr.Like .halt .halt

/-- The entries are markers of one label or instructions that are alike. -/
inductive Item.Like : Item → Item → Prop where
  | mark (l : Label) : Item.Like (.mark l) (.mark l)
  | instr {i j : Instr Label} : i.Like K j → Item.Like (.instr i) (.instr j)

/-- The entries of the code are alike one by one. -/
abbrev CodeLike : List Item → List Item → Prop := List.Forall₂ (Item.Like K)

/-- The values have one type and are found in corresponding places. -/
def Value.Like (v w : Value) : Prop := v.operand.Like K w.operand ∧ v.ty = w.ty

/-- The code is alike, and so are the values. -/
def Lowered.Like (x y : Lowered) : Prop := CodeLike K x.code y.code ∧ x.value.Like K y.value

/-- The faults of lowering are about corresponding names. -/
inductive Fault.Like : Fault → Fault → Prop where
  | redeclared {x y : String} (ty : Scalar) : K.name x y →
      Fault.Like (.redeclared x ty) (.redeclared y ty)
  | undeclared {x y : String} : K.name x y → Fault.Like (.undeclared x) (.undeclared y)
  | narrowing {x y : String} : K.name x y → Fault.Like (.narrowing x) (.narrowing y)
  | selector (ty : Scalar) : Fault.Like (.selector ty) (.selector ty)
  | duplicateCase (n : Int64) : Fault.Like (.duplicateCase n) (.duplicateCase n)
  | unsupported (feature : String) : Fault.Like (.unsupported feature) (.unsupported feature)

/-- The supplies cannot be told apart by corresponding names, by temporaries or by labels. -/
structure NameSupply.Like (s t : NameSupply) : Prop where
  find?_eq : ∀ {x y}, K.name x y → s.scope.find? x = t.scope.find? y
  contains_eq : ∀ n, s.scope.contains (tempName n) = t.scope.contains (tempName n)
  nextTemp_eq : s.nextTemp = t.nextTemp
  nextLabel_eq : s.nextLabel = t.nextLabel

/-! ### Steps -/

/-- Both succeed with related results, or both fail with faults that are alike. -/
inductive Correspondence.Ends {α β : Type} (R : α → β → Prop) :
    Except Fault α → Except Fault β → Prop where
  | ok {a : α} {b : β} : R a b → Ends R (.ok a) (.ok b)
  | error {e e' : Fault} : e.Like K e' → Ends R (.error e) (.error e')

/-- From supplies that are alike the steps end alike, with supplies that are alike. -/
def Lower.Alike {α β : Type} (Q : α → β → Prop) (x : Lower α) (y : Lower β) : Prop :=
  ∀ ⦃s t⦄, s.Like K t → K.Ends (fun r r' => Q r.1 r'.1 ∧ r.2.Like K r'.2) (x s) (y t)

variable {K}

theorem Correspondence.Written.eq_iff {x y x' y' : String} (h : K.Written x y)
    (h' : K.name x' y') : x' = x ↔ y' = y := by
  rcases h with h | ⟨n, rfl, rfl⟩
  · exact K.eq_iff h' h
  · exact K.temp_iff h' n

theorem Correspondence.Written.temp_iff {x y : String} (h : K.Written x y) (n : ℕ) :
    tempName n = x ↔ tempName n = y := by
  rcases h with h | ⟨m, rfl, rfl⟩
  · rw [eq_comm, K.temp_iff h n, eq_comm]
  · exact Iff.rfl

/-- Names that correspond can be added to supplies that are alike. -/
theorem NameSupply.Like.insert {s t : NameSupply} (h : s.Like K t) {x y : String}
    (hxy : K.Written x y) (ty : Scalar) {n m : ℕ} (hnm : n = m) :
    NameSupply.Like K { s with scope := s.scope.insert x ty, nextTemp := n }
      { t with scope := t.scope.insert y ty, nextTemp := m } where
  find?_eq := by
    intro x' y' hname
    simp only [Scope.find?_insert, hxy.eq_iff hname, h.find?_eq hname]
  contains_eq := by
    intro k
    have hk := h.contains_eq k
    simp only [Scope.contains, Scope.find?_insert, hxy.temp_iff] at hk ⊢
    split_ifs
    · rfl
    · exact hk
  nextTemp_eq := hnm
  nextLabel_eq := h.nextLabel_eq

section Steps

variable {α β γ δ : Type} {Q : α → β → Prop} {P : γ → δ → Prop}

theorem Correspondence.Ends.bind {x : Except Fault α} {y : Except Fault β}
    {f : α → Except Fault γ} {g : β → Except Fault δ} (h : K.Ends Q x y)
    (hf : ∀ ⦃a b⦄, Q a b → K.Ends P (f a) (g b)) : K.Ends P (x >>= f) (y >>= g) := by
  cases h with
  | ok hab => exact hf hab
  | error he => exact .error he

theorem Correspondence.Ends.map {x : Except Fault α} {y : Except Fault β} {f : α → γ} {g : β → δ}
    (h : K.Ends Q x y) (hf : ∀ ⦃a b⦄, Q a b → P (f a) (g b)) : K.Ends P (x.map f) (y.map g) := by
  cases h with
  | ok hab => exact .ok (hf hab)
  | error he => exact .error he

namespace Lower

theorem alike_pure {a : α} {b : β} (h : Q a b) : Alike K Q (pure a) (pure b) :=
  fun _ _ hst => .ok ⟨h, hst⟩

theorem Alike.bind {x : Lower α} {y : Lower β} {f : α → Lower γ} {g : β → Lower δ}
    (h : Alike K Q x y) (hf : ∀ ⦃a b⦄, Q a b → Alike K P (f a) (g b)) :
    Alike K P (x >>= f) (y >>= g) :=
  fun _ _ hst => (h hst).bind fun _ _ hr => hf hr.1 hr.2

theorem alike_ofExcept {x : Except Fault α} {y : Except Fault β} (h : K.Ends Q x y) :
    Alike K Q (ofExcept x) (ofExcept y) := by
  intro s t hst
  cases h with
  | ok hab => exact .ok ⟨hab, hst⟩
  | error he => exact .error he

theorem alike_typeOf {x y : String} (h : K.name x y) :
    Alike K (fun ty ty' => ty = ty') (typeOf x) (typeOf y) := by
  intro s t hst
  have hfind := hst.find?_eq h
  unfold typeOf Scope.typeOf
  rw [hfind]
  cases t.scope.find? y with
  | some ty => exact .ok ⟨rfl, hst⟩
  | none => exact .error (.undeclared h)

/-- Supplies that are alike give out the same temporary. -/
theorem alike_freshTemp (ty : Scalar) : Alike K K.Written (freshTemp ty) (freshTemp ty) := by
  intro s t hst
  have hfree : s.scope.firstFree s.nextTemp = t.scope.firstFree t.nextTemp := by
    rw [Scope.firstFree_congr hst.contains_eq, hst.nextTemp_eq]
  have hname : K.Written (s.freshTemp ty).1 (t.freshTemp ty).1 :=
    Or.inr ⟨_, rfl, congrArg tempName hfree.symm⟩
  exact .ok ⟨hname, hst.insert hname ty (congrArg (· + 1) hfree)⟩

theorem alike_freshFlag : Alike K K.Written freshFlag freshFlag := alike_freshTemp .int

theorem alike_freshLabels (n : ℕ) :
    Alike K (fun a b => a = b) (freshLabels n) (freshLabels n) := by
  intro s t hst
  have hlabel := hst.nextLabel_eq
  exact .ok ⟨hlabel, hst.find?_eq, hst.contains_eq, hst.nextTemp_eq, congrArg (· + n) hlabel⟩

theorem alike_freshLabel : Alike K (fun a b => a = b) freshLabel freshLabel := by
  intro s t hst
  have hlabel := hst.nextLabel_eq
  exact .ok ⟨congrArg Label.mk hlabel, hst.find?_eq, hst.contains_eq, hst.nextTemp_eq,
    congrArg (· + 1) hlabel⟩

end Lower

/-- A declaration of corresponding names succeeds for both, or both names are in scope already. -/
theorem NameSupply.Like.declare {s t : NameSupply} (h : s.Like K t) {x y : String}
    (hxy : K.name x y) (ty : Scalar) :
    K.Ends (fun u v => NameSupply.Like K { s with scope := u } { t with scope := v })
      (s.scope.declare x ty) (t.scope.declare y ty) := by
  unfold Scope.declare
  rw [h.find?_eq hxy]
  cases t.scope.find? y with
  | some existing => exact .error (.redeclared existing hxy)
  | none => exact .ok (h.insert (Or.inl hxy) ty h.nextTemp_eq)

theorem NameSupply.Like.declareAll {s t : NameSupply} (h : s.Like K t)
    {vars vars' : List (String × Scalar)}
    (hvars : List.Forall₂ (fun v w => K.name v.1 w.1 ∧ v.2 = w.2) vars vars') :
    K.Ends (fun u v => NameSupply.Like K { s with scope := u } { t with scope := v })
      (s.scope.declareAll vars) (t.scope.declareAll vars') := by
  induction hvars generalizing s t with
  | nil => exact .ok h
  | @cons v w vars vars' hvw _ ih =>
    obtain ⟨x, ty⟩ := v
    obtain ⟨y, ty'⟩ := w
    obtain ⟨hxy, rfl⟩ : K.name x y ∧ ty = ty' := hvw
    simp only [Scope.declareAll, List.foldlM_cons]
    exact (h.declare hxy ty).bind fun u v huv => ih huv

theorem Lower.alike_declareAll {vars vars' : List (String × Scalar)}
    (h : List.Forall₂ (fun v w => K.name v.1 w.1 ∧ v.2 = w.2) vars vars') :
    Alike K (fun _ _ => True) (declareAll vars) (declareAll vars') :=
  fun _ _ hst => (hst.declareAll h).map fun _ _ huv => ⟨trivial, huv⟩

end Steps

/-! ### Expressions and conditions -/

open Lower

theorem Operand.like_zero : Operand.zero.Like K .zero := K.int rfl

theorem Lowered.like_inVar {c c' : List Item} (hc : CodeLike K c c') {x y : String}
    (hxy : K.Written x y) (ty : Scalar) : (Lowered.inVar c x ty).Like K (.inVar c' y ty) :=
  ⟨hc, hxy, rfl⟩

/-- One more instruction. -/
theorem codeLike_append_instr {c c' : List Item} (hc : CodeLike K c c') {i j : Instr Label}
    (hij : i.Like K j) : CodeLike K (c ++ [.instr i]) (c' ++ [.instr j]) :=
  List.rel_append hc (.cons (.instr hij) .nil)

theorem Value.widen_alike {v w : Value} (h : v.Like K w) (ty : Scalar) :
    Alike K (fun a b => CodeLike K a.1 b.1 ∧ a.2.Like K b.2) (v.widen ty) (w.widen ty) := by
  obtain ⟨o, from_⟩ := v
  obtain ⟨o', from'⟩ := w
  obtain ⟨ho, rfl⟩ : o.Like K o' ∧ from_ = from' := h
  cases from_ <;> cases ty
  case int.float =>
    exact (alike_freshTemp .float).bind fun d d' hd =>
      alike_pure ⟨.cons (.instr (.convert .float hd ho)) .nil, hd⟩
  all_goals exact alike_pure ⟨.nil, ho⟩

/-- The operands have one type and are alike, and so is their code. -/
def Operands.Like (K : Correspondence) (x y : Operands) : Prop :=
  CodeLike K x.code y.code ∧ x.lhs.Like K y.lhs ∧ x.rhs.Like K y.rhs ∧ x.ty = y.ty

theorem Lowered.balance_alike {left right left' right' : Lowered} (hl : left.Like K left')
    (hr : right.Like K right') :
    Alike K (Operands.Like K) (left.balance right) (left'.balance right') := by
  obtain ⟨hlcode, hlvalue⟩ := hl
  obtain ⟨hrcode, hrvalue⟩ := hr
  have hty : left.ty.join right.ty = left'.ty.join right'.ty := by
    rw [show left.ty = left'.ty from hlvalue.2, show right.ty = right'.ty from hrvalue.2]
  unfold Lowered.balance
  simp only [hty]
  refine (Value.widen_alike hlvalue _).bind fun a a' ha => ?_
  refine (Value.widen_alike hrvalue _).bind fun b b' hb => alike_pure ?_
  exact ⟨List.rel_append (List.rel_append (List.rel_append hrcode hlcode) ha.1) hb.1, ha.2, hb.2,
    rfl⟩

theorem Expr.lower_alike {e f : Expr} (h : e.Like K f) :
    Alike K (Lowered.Like K) e.lower f.lower := by
  induction e generalizing f with
  | lit l =>
    cases f with
    | lit m => exact alike_pure ⟨.nil, h, K.ty_eq h⟩
    | _ => exact h.elim
  | var x =>
    cases f with
    | var y =>
      refine (alike_typeOf h).bind fun ty ty' hty => alike_pure ?_
      subst hty
      exact Lowered.like_inVar .nil (Or.inl h) ty
    | _ => exact h.elim
  | arith op l r ihl ihr =>
    cases f with
    | arith op' l' r' =>
      obtain ⟨rfl, hl, hr⟩ := h
      refine (ihr hr).bind fun right right' hright => (ihl hl).bind fun left left' hleft => ?_
      refine (Lowered.balance_alike hleft hright).bind fun ops ops' hops => ?_
      obtain ⟨hcode, hlhs, hrhs, hty⟩ := hops
      rw [hty]
      refine (alike_freshTemp _).bind fun d d' hd => alike_pure (Lowered.like_inVar ?_ hd _)
      exact codeLike_append_instr hcode (.arith op _ hd hlhs hrhs)
    | _ => exact h.elim
  | cast ty e ih =>
    cases f with
    | cast ty' e' =>
      obtain ⟨rfl, he⟩ := h
      refine (ih he).bind fun x y hxy => ?_
      obtain ⟨hcode, hoperand, hty⟩ := id hxy
      rw [show x.ty = y.ty from hty]
      split_ifs
      · exact alike_pure hxy
      · refine (alike_freshTemp ty).bind fun d d' hd => alike_pure (Lowered.like_inVar ?_ hd ty)
        exact codeLike_append_instr hcode (.convert ty hd hoperand)
    | _ => exact h.elim

theorem Comparison.lower_alike (op : Comparison) {l r l' r' : Expr} (hl : l.Like K l')
    (hr : r.Like K r') : Alike K (Lowered.Like K) (op.lower l r) (op.lower l' r') := by
  refine (Expr.lower_alike hr).bind fun right right' hright => ?_
  refine (Expr.lower_alike hl).bind fun left left' hleft => ?_
  refine (Lowered.balance_alike hleft hright).bind fun ops ops' hops => ?_
  obtain ⟨hcode, hlhs, hrhs, hty⟩ := hops
  rw [hty]
  refine alike_freshFlag.bind fun d d' hd => alike_pure (Lowered.like_inVar ?_ hd .int)
  exact codeLike_append_instr hcode (.compare op _ hd hlhs hrhs)

theorem Lowered.disjoin_alike {left right left' right' : Lowered} (hl : left.Like K left')
    (hr : right.Like K right') :
    Alike K (Lowered.Like K) (left.disjoin right) (left'.disjoin right') := by
  refine alike_freshFlag.bind fun sum sum' hsum => alike_freshFlag.bind fun d d' hd => ?_
  refine alike_pure (Lowered.like_inVar (List.rel_append (List.rel_append hr.1 hl.1) ?_) hd .int)
  exact .cons (.instr (.arith .add .int hsum hl.2.1 hr.2.1))
    (.cons (.instr (.compare .ne .int hd hsum Operand.like_zero)) .nil)

theorem Lowered.conjoin_alike {left right left' right' : Lowered} (hl : left.Like K left')
    (hr : right.Like K right') :
    Alike K (Lowered.Like K) (left.conjoin right) (left'.conjoin right') := by
  refine alike_freshFlag.bind fun d d' hd => alike_freshLabel.bind fun keep keep' hkeep => ?_
  subst hkeep
  refine alike_pure (Lowered.like_inVar (List.rel_append (List.rel_append hr.1 hl.1) ?_) hd .int)
  exact .cons (.instr (.compare .ne .int hd hl.2.1 Operand.like_zero))
    (.cons (.instr (.jumpIfZero keep hd))
      (.cons (.instr (.compare .ne .int hd hr.2.1 Operand.like_zero)) (.cons (.mark keep) .nil)))

theorem Lowered.negate_alike {x y : Lowered} (h : x.Like K y) :
    Alike K (Lowered.Like K) x.negate y.negate := by
  refine alike_freshFlag.bind fun d d' hd => alike_pure (Lowered.like_inVar ?_ hd .int)
  exact codeLike_append_instr h.1 (.compare .eq .int hd h.2.1 Operand.like_zero)

theorem Comparison.lowerOrEqual_alike (strict : Comparison) {l r l' r' : Expr} (hl : l.Like K l')
    (hr : r.Like K r') :
    Alike K (Lowered.Like K) (strict.lowerOrEqual l r) (strict.lowerOrEqual l' r') :=
  (Comparison.lower_alike .eq hl hr).bind fun _ _ hequal =>
    (strict.lower_alike hl hr).bind fun _ _ hless => Lowered.disjoin_alike hless hequal

theorem Relation.lower_alike (op : Relation) {l r l' r' : Expr} (hl : l.Like K l')
    (hr : r.Like K r') : Alike K (Lowered.Like K) (op.lower l r) (op.lower l' r') := by
  cases op
  case le => exact Comparison.lowerOrEqual_alike .lt hl hr
  case ge => exact Comparison.lowerOrEqual_alike .gt hl hr
  all_goals exact Comparison.lower_alike _ hl hr

theorem Cond.lower_alike {c d : Cond} (h : c.Like K d) :
    Alike K (Lowered.Like K) c.lower d.lower := by
  induction c generalizing d with
  | or l r ihl ihr =>
    cases d with
    | or l' r' =>
      exact (ihr h.2).bind fun _ _ hright => (ihl h.1).bind fun _ _ hleft =>
        Lowered.disjoin_alike hleft hright
    | _ => exact h.elim
  | and l r ihl ihr =>
    cases d with
    | and l' r' =>
      exact (ihr h.2).bind fun _ _ hright => (ihl h.1).bind fun _ _ hleft =>
        Lowered.conjoin_alike hleft hright
    | _ => exact h.elim
  | not c ih =>
    cases d with
    | not d => exact (ih h).bind fun _ _ hx => Lowered.negate_alike hx
    | _ => exact h.elim
  | rel op l r =>
    cases d with
    | rel op' l' r' =>
      obtain ⟨rfl, hl, hr⟩ := h
      exact op.lower_alike hl hr
    | _ => exact h.elim

/-! ### Statements -/

theorem Value.store_ends {v w : Value} (h : v.Like K w) {x y : String} (hxy : K.name x y)
    (ty : Scalar) : K.Ends (Instr.Like K) (v.store x ty) (w.store y ty) := by
  obtain ⟨o, from_⟩ := v
  obtain ⟨o', from'⟩ := w
  obtain ⟨ho, rfl⟩ : o.Like K o' ∧ from_ = from' := h
  cases from_ <;> cases ty
  case int.float => exact .ok (.convert .float (Or.inl hxy) ho)
  case float.int => exact .error (.narrowing hxy)
  all_goals exact .ok (.copy _ (Or.inl hxy) ho)

theorem Value.asSelector_ends {v w : Value} (h : v.Like K w) :
    K.Ends (Operand.Like K) v.asSelector w.asSelector := by
  obtain ⟨o, from_⟩ := v
  obtain ⟨o', from'⟩ := w
  obtain ⟨ho, rfl⟩ : o.Like K o' ∧ from_ = from' := h
  cases from_ with
  | int => exact .ok ho
  | float => exact .error (.selector .float)

namespace Case

theorem map_number_of_likeAll {cases cases' : List Case} (h : LikeAll K cases cases') :
    cases.map number = cases'.map number := by
  induction cases generalizing cases' with
  | nil =>
    cases cases' with
    | nil => rfl
    | cons c cases' => exact h.elim
  | cons c cases ih =>
    obtain ⟨n, body⟩ := c
    cases cases' with
    | nil => exact h.elim
    | cons c' cases' =>
      obtain ⟨n', body'⟩ := c'
      obtain ⟨hnumber, -, hrest⟩ : n = n' ∧ _ ∧ LikeAll K cases cases' := h
      exact congrArg₂ List.cons hnumber (ih hrest)

theorem checkDistinct_ends {cases cases' : List Case}
    (h : cases.map number = cases'.map number) :
    K.Ends (fun _ _ => True) (checkDistinct cases) (checkDistinct cases') := by
  unfold checkDistinct
  rw [h]
  cases firstRepeat? (cases'.map number) with
  | none => exact .ok trivial
  | some n => exact .error (.duplicateCase n)

theorem dispatch_like {o o' : Operand} (ho : o.Like K o') {d d' : String} (hd : K.Written d d')
    {cases cases' : List Case} (h : cases.map number = cases'.map number) (first : ℕ) :
    CodeLike K (dispatch o d first cases) (dispatch o' d' first cases') := by
  induction cases generalizing cases' first with
  | nil =>
    obtain rfl := List.map_eq_nil_iff.1 h.symm
    exact .nil
  | cons c cases ih =>
    obtain ⟨c', rest, rfl, hnumber, hrest⟩ := List.map_eq_cons_iff.1 h.symm
    refine List.rel_append (.cons (.instr ?_) (.cons (.instr (.jumpIfZero _ hd)) .nil))
      (ih hrest.symm (first + 1))
    rw [hnumber]
    exact .compare .ne .int hd ho (K.int rfl)

theorem lowerDispatch_alike {o o' : Operand} (ho : o.Like K o') {cases cases' : List Case}
    (h : cases.map number = cases'.map number) (first : ℕ) :
    Alike K (CodeLike K) (lowerDispatch o first cases) (lowerDispatch o' first cases') := by
  cases cases with
  | nil =>
    obtain rfl := List.map_eq_nil_iff.1 h.symm
    exact alike_pure .nil
  | cons c cases =>
    obtain ⟨c', rest, rfl, -, -⟩ := List.map_eq_cons_iff.1 h.symm
    exact alike_freshFlag.bind fun d d' hd => alike_pure (dispatch_like ho hd h first)

end Case

/-- Whatever statement is like it is lowered to code that is alike. -/
def Stmt.LowersAlike (K : Correspondence) (st : Stmt) : Prop :=
  ∀ ⦃st'⦄, st.Like K st' → Alike K (CodeLike K) st.lower st'.lower

theorem Stmt.lowerAll_alike_of {l m : List Stmt} (hl : ∀ st ∈ l, st.LowersAlike K)
    (h : LikeAll K l m) : Alike K (CodeLike K) (lowerAll l) (lowerAll m) := by
  induction l generalizing m with
  | nil =>
    cases m with
    | nil => exact alike_pure .nil
    | cons st' m => exact h.elim
  | cons st l ih =>
    cases m with
    | nil => exact h.elim
    | cons st' m =>
      obtain ⟨hst, hl⟩ := List.forall_mem_cons.1 hl
      exact (hst h.1).bind fun _ _ hcode => (ih hl h.2).bind fun _ _ hrest =>
        alike_pure (List.rel_append hcode hrest)

theorem Case.lowerAll_alike_of {cases cases' : List Case}
    (hcases : ∀ c ∈ cases, ∀ st ∈ c.body, st.LowersAlike K) (h : LikeAll K cases cases')
    (endLabel : Label) (first : ℕ) :
    Alike K (CodeLike K) (lowerAll endLabel first cases) (lowerAll endLabel first cases') := by
  induction cases generalizing cases' first with
  | nil =>
    cases cases' with
    | nil => exact alike_pure .nil
    | cons c' cases' => exact h.elim
  | cons c cases ih =>
    obtain ⟨n, body⟩ := c
    cases cases' with
    | nil => exact h.elim
    | cons c' cases' =>
      obtain ⟨n', body'⟩ := c'
      obtain ⟨-, hbody, hrest⟩ : n = n' ∧ Stmt.LikeAll K body body' ∧ LikeAll K cases cases' := h
      obtain ⟨hst, hcases⟩ := List.forall_mem_cons.1 hcases
      refine (Stmt.lowerAll_alike_of hst hbody).bind fun code code' hcode => ?_
      refine (ih hcases hrest (first + 1)).bind fun rest rest' hrest => alike_pure ?_
      have hmark : CodeLike K [.mark ⟨first⟩] [.mark ⟨first⟩] := .cons (.mark _) .nil
      exact List.rel_append
        (codeLike_append_instr (List.rel_append hmark hcode) (.jump endLabel)) hrest

namespace Stmt

theorem lowersAlike_assign (x : String) (e : Expr) : (assign x e).LowersAlike K := by
  intro st' h
  cases st' with
  | assign y f =>
    refine (Expr.lower_alike h.2).bind fun v w hvw => (alike_typeOf h.1).bind fun ty ty' hty => ?_
    subst hty
    refine (alike_ofExcept (Value.store_ends hvw.2 h.1 ty)).bind fun i j hij => alike_pure ?_
    exact codeLike_append_instr hvw.1 hij
  | _ => exact h.elim

theorem lowersAlike_ite {c : Cond} {yes no : Stmt} (hyes : yes.LowersAlike K)
    (hno : no.LowersAlike K) : (ite c yes no).LowersAlike K := by
  intro st' h
  cases st' with
  | ite d yes' no' =>
    obtain ⟨hc, hy, hn⟩ := h
    refine alike_freshLabel.bind fun thenLabel _ hthen => ?_
    refine alike_freshLabel.bind fun elseLabel _ helse => ?_
    refine alike_freshLabel.bind fun endLabel _ hend => ?_
    subst hthen helse hend
    refine (Cond.lower_alike hc).bind fun test test' htest => ?_
    refine (hyes hy).bind fun yesCode yesCode' hyesCode => ?_
    refine (hno hn).bind fun noCode noCode' hnoCode => alike_pure ?_
    have hbranch : CodeLike K [.instr (.jumpIfZero elseLabel test.operand), .mark thenLabel]
        [.instr (.jumpIfZero elseLabel test'.operand), .mark thenLabel] :=
      .cons (.instr (.jumpIfZero _ htest.2.1)) (.cons (.mark _) .nil)
    have hjump : CodeLike K [.instr (.jump endLabel), .mark elseLabel]
        [.instr (.jump endLabel), .mark elseLabel] :=
      .cons (.instr (.jump _)) (.cons (.mark _) .nil)
    have hcode := List.rel_append (List.rel_append htest.1 hbranch) hyesCode
    exact List.rel_append (List.rel_append (List.rel_append hcode hjump) hnoCode)
      (.cons (.mark endLabel) .nil)
  | _ => exact h.elim

theorem lowersAlike_loop {c : Cond} {body : Stmt} (hbody : body.LowersAlike K) :
    (loop c body).LowersAlike K := by
  intro st' h
  cases st' with
  | loop d body' =>
    obtain ⟨hc, hb⟩ := h
    refine alike_freshLabel.bind fun testLabel _ htestLabel => ?_
    refine alike_freshLabel.bind fun endLabel _ hend => ?_
    subst htestLabel hend
    refine (Cond.lower_alike hc).bind fun test test' htest => ?_
    refine (hbody hb).bind fun bodyCode bodyCode' hbodyCode => alike_pure ?_
    have hmark : CodeLike K [.mark testLabel] [.mark testLabel] := .cons (.mark _) .nil
    have htestCode := codeLike_append_instr (List.rel_append hmark htest.1)
      (.jumpIfZero endLabel htest.2.1)
    exact List.rel_append (List.rel_append htestCode hbodyCode)
      (.cons (.instr (.jump testLabel)) (.cons (.mark endLabel) .nil))
  | _ => exact h.elim

theorem lowersAlike_switch {e : Expr} {cases : List Case} {otherwise : List Stmt}
    (hcases : ∀ c ∈ cases, ∀ st ∈ c.body, st.LowersAlike K)
    (hother : ∀ st ∈ otherwise, st.LowersAlike K) : (switch e cases otherwise).LowersAlike K := by
  intro st' h
  cases st' with
  | switch e' cases' otherwise' =>
    obtain ⟨he, hca, hot⟩ := h
    have hnumbers := Case.map_number_of_likeAll hca
    have hlength : cases.length = cases'.length := by simpa using congrArg List.length hnumbers
    refine (Expr.lower_alike he).bind fun x x' hx => ?_
    refine (alike_ofExcept (Value.asSelector_ends hx.2)).bind fun o o' ho => ?_
    refine (alike_ofExcept (Case.checkDistinct_ends hnumbers)).bind fun _ _ _ => ?_
    refine alike_freshLabel.bind fun endLabel _ hend => ?_
    rw [← hlength]
    refine (alike_freshLabels cases.length).bind fun first _ hfirst => ?_
    subst hend hfirst
    refine (Case.lowerDispatch_alike ho hnumbers first).bind fun head head' hhead => ?_
    refine (lowerAll_alike_of hother hot).bind fun otherCode otherCode' hotherCode => ?_
    refine (Case.lowerAll_alike_of hcases hca endLabel first).bind
      fun caseCode caseCode' hcaseCode => alike_pure ?_
    have hcode := codeLike_append_instr (List.rel_append (List.rel_append hx.1 hhead) hotherCode)
      (.jump endLabel)
    exact List.rel_append (List.rel_append hcode hcaseCode) (.cons (.mark endLabel) .nil)
  | _ => exact h.elim

theorem lowersAlike (st : Stmt) : st.LowersAlike K := by
  induction st using Stmt.induction with
  | assign x e => exact lowersAlike_assign x e
  | input x =>
    intro st' h
    cases st' with
    | input y =>
      refine (alike_typeOf h).bind fun ty ty' hty => alike_pure ?_
      subst hty
      exact .cons (.instr (.read ty (Or.inl h))) .nil
    | _ => exact h.elim
  | output e =>
    intro st' h
    cases st' with
    | output f =>
      refine (Expr.lower_alike h).bind fun v w hvw => alike_pure ?_
      rw [show v.ty = w.ty from hvw.2.2]
      exact codeLike_append_instr hvw.1 (.print _ hvw.2.1)
    | _ => exact h.elim
  | ite c yes no hyes hno => exact lowersAlike_ite hyes hno
  | loop c body hbody => exact lowersAlike_loop hbody
  | switch e cases otherwise hcases hother => exact lowersAlike_switch hcases hother
  | leave =>
    intro st' h
    cases st' with
    | leave => exact alike_ofExcept (.error (.unsupported "break"))
    | _ => exact h.elim
  | block body hbody =>
    intro st' h
    cases st' with
    | block body' => exact lowerAll_alike_of hbody h
    | _ => exact h.elim

theorem lowerAll_alike {l m : List Stmt} (h : LikeAll K l m) :
    Alike K (CodeLike K) (lowerAll l) (lowerAll m) :=
  lowerAll_alike_of (fun st _ => st.lowersAlike) h

end Stmt

/-! ### Linking -/

section Linking

variable {c d : List Item}

theorem labelsIn_eq_of_codeLike (h : CodeLike K c d) : labelsIn c = labelsIn d := by
  induction h with
  | nil => rfl
  | cons hitem _ ih =>
    cases hitem with
    | mark l => exact congrArg (l :: ·) ih
    | instr hij => exact ih

theorem instrsIn_like_of_codeLike (h : CodeLike K c d) :
    List.Forall₂ (Instr.Like K) (instrsIn c) (instrsIn d) := by
  induction h with
  | nil => exact .nil
  | cons hitem _ ih =>
    cases hitem with
    | mark l => exact ih
    | instr hij => exact .cons hij ih

theorem Label.addressIn?_eq_of_codeLike (h : CodeLike K c d) (l : Label) :
    l.addressIn? c = l.addressIn? d := by
  induction h with
  | nil => rfl
  | cons hitem _ ih =>
    cases hitem with
    | mark m => rw [addressIn?, addressIn?, ih]
    | instr hij => rw [addressIn?, addressIn?, ih]

/-- Instructions that are alike have the same target, and are alike when it is resolved. -/
theorem Instr.Like.mapTarget {α β : Type} {f : α → Option β} {i j : Instr α} {i' : Instr β}
    (h : i.Like K j) (hi : i.mapTarget f = some i') :
    ∃ j', j.mapTarget f = some j' ∧ i'.Like K j' := by
  cases h with
  | jump target =>
    obtain ⟨n, hn, hi'⟩ := Option.bind_eq_some_iff.1 hi
    obtain rfl := Option.some.inj hi'
    exact ⟨.jump n, by simp [Instr.mapTarget, hn], .jump n⟩
  | jumpIfZero target ho =>
    obtain ⟨n, hn, hi'⟩ := Option.bind_eq_some_iff.1 hi
    obtain rfl := Option.some.inj hi'
    exact ⟨.jumpIfZero n _, by simp [Instr.mapTarget, hn], .jumpIfZero n ho⟩
  | _ =>
    obtain rfl := Option.some.inj hi
    exact ⟨_, rfl, by constructor <;> assumption⟩

theorem Instr.exists_mapTarget_of_like {α β : Type} {f : α → Option β} {is js : List (Instr α)}
    {is' : List (Instr β)} (h : List.Forall₂ (Instr.Like K) is js)
    (his : List.Forall₂ (fun i i' => i.mapTarget f = some i') is is') :
    ∃ js', List.Forall₂ (fun j j' => j.mapTarget f = some j') js js' ∧
      List.Forall₂ (Instr.Like K) is' js' := by
  induction h generalizing is' with
  | nil =>
    obtain rfl := List.forall₂_nil_left_iff.1 his
    exact ⟨[], .nil, .nil⟩
  | cons hij _ ih =>
    obtain ⟨i', rest, hi', hrest, rfl⟩ := List.forall₂_cons_left_iff.1 his
    obtain ⟨j', hj', hlike⟩ := hij.mapTarget hi'
    obtain ⟨js', hjs', hrest'⟩ := ih hrest
    exact ⟨j' :: js', .cons hj' hjs', .cons hlike hrest'⟩

/-- Code that is alike is linked to lines that are alike. -/
theorem Fragment.exists_link_of_codeLike {f g : Fragment} (h : CodeLike K f.items g.items)
    {signature : String} {x : Executable} (hx : f.link signature = .ok x) :
    ∃ y, g.link signature = .ok y ∧ y.signature = x.signature ∧
      List.Forall₂ (Instr.Like K) x.instrs y.instrs := by
  obtain ⟨hnodup, hsignature, hmap⟩ := link_ok_iff.1 hx
  have hlines : List.Forall₂ (Instr.Like K) f.lines g.lines :=
    List.rel_append (instrsIn_like_of_codeLike h) (.cons .halt .nil)
  have haddress : (fun l : Label => l.addressIn? f.items) = fun l => l.addressIn? g.items :=
    funext (Label.addressIn?_eq_of_codeLike h)
  have hlabels : f.labels = g.labels := labelsIn_eq_of_codeLike h
  obtain ⟨instrs, hinstrs, hlike⟩ := Instr.exists_mapTarget_of_like hlines hmap
  rw [haddress] at hinstrs
  exact ⟨⟨instrs, signature⟩, link_ok_iff.2 ⟨hlabels ▸ hnodup, rfl, hinstrs⟩, hsignature.symm,
    hlike⟩

end Linking

/-! ### Programs -/

namespace Program

theorem emptySupply_like : NameSupply.Like K {} {} := by
  refine ⟨fun _ => rfl, fun _ => rfl, rfl, rfl⟩

/-- Programs that are alike are lowered to code that is alike. -/
theorem lower_ends {p q : Program} (h : p.Like K q) :
    K.Ends (fun f g => CodeLike K f.items g.items) p.lower q.lower := by
  have hitems : Lower.Alike K (CodeLike K) p.lowerItems q.lowerItems :=
    (alike_declareAll h.1).bind fun _ _ _ => Stmt.lowerAll_alike h.2
  exact (hitems emptySupply_like).map fun _ _ hr => hr.1

/-- Programs that are alike are built to lines that are alike. -/
theorem build_ends {p q : Program} (h : p.Like K q) (o : Options) :
    K.Ends (fun x y => y.signature = x.signature ∧ List.Forall₂ (Instr.Like K) x.instrs y.instrs)
      (p.build o) (q.build o) := by
  have hlower := lower_ends h
  unfold build
  generalize hp : p.lower = r at hlower ⊢
  generalize q.lower = r' at hlower ⊢
  cases hlower with
  | error he => exact .error he
  | @ok f g hfg =>
    obtain ⟨x, hx⟩ := exists_link hp o.signature
    obtain ⟨y, hy, hlike⟩ := Fragment.exists_link_of_codeLike hfg hx
    show K.Ends _ (f.link o.signature) (g.link o.signature)
    rw [hx, hy]
    exact .ok hlike

end Program

end QuadCode
