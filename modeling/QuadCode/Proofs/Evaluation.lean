import QuadCode.Proofs.Source
import QuadCode.Proofs.Typing

/-!
# Expressions and conditions on the machine

The code of an expression computes its value and leaves all variables alone that
were in scope before. Where the expression has no value, the machine sticks in
the code, or the value is that of a variable that was never assigned.

* `Installation` is code that a machine runs, with all that is known about it;
* `Installation.Goes` is the way these statements are put: the machine gets to
  the end of the code in a world with a property, or it sticks for a reason.
  Code in sequence is `Goes.andThen`;
* `Expr.goes` and `Cond.goes` are the results.
-/

namespace QuadCode

open StateTransition

namespace World

/-- The worlds differ at most in variables that are not in scope. -/
structure SameOn (G : Scope) (w u : World) : Prop where
  store : ∀ ⦃y⦄, G.find? y ≠ none → u.store y = w.store y
  input : u.input = w.input
  output : u.output = w.output

namespace SameOn

variable {G H : Scope} {w u v : World}

theorem refl (G : Scope) (w : World) : w.SameOn G w := ⟨fun _ _ => rfl, rfl, rfl⟩

theorem trans (h : w.SameOn G u) (h' : u.SameOn G v) : w.SameOn G v :=
  ⟨fun _ hy => (h'.store hy).trans (h.store hy), h'.input.trans h.input, h'.output.trans h.output⟩

theorem mono (h : w.SameOn H u) (hle : G ≤ H) : w.SameOn G u :=
  ⟨fun _ hy => h.store (Scope.find?_ne_none_mono hle hy), h.input, h.output⟩

theorem set_of_none {dst : String} (hdst : G.find? dst = none) (w : World) (v : Literal) :
    w.SameOn G (w.set dst v) := by
  refine ⟨fun y hy => Function.update_of_ne ?_ _ _, rfl, rfl⟩
  rintro rfl
  exact hy hdst

/-- Operands in scope have the same value. -/
theorem value_eq (h : w.SameOn G u) {o : Operand} {ty : Scalar} (ho : o.HasType G ty) :
    u.value o = w.value o := by
  cases o with
  | var name =>
    refine h.store ?_
    rw [show G.find? name = some ty from ho]
    exact Option.some_ne_none ty
  | lit v => rfl

theorem fits (h : w.SameOn G u) (hw : w.Fits G) : u.Fits G := by
  intro x v ty hx hty
  rw [h.store (by simp [hty])] at hx
  exact hw hx hty

end SameOn

variable {N : Numerics} {w : World} {o : Operand} {ty : Scalar}

theorem fetch_of_value {v : Literal} (h : w.value o = some v) (hv : v.ty = ty) :
    w.fetch N ty o = some v := by rw [fetch, h, Option.bind_some, N.convert_self hv]

/-- Two operands, brought to a type. -/
def fetchBoth (N : Numerics) (w : World) (ty : Scalar) (lhs rhs : Operand) :
    Option (Literal × Literal) := do
  let a ← w.fetch N ty lhs
  let b ← w.fetch N ty rhs
  return (a, b)

end World

/-! ### Values of expressions -/

/-- The values of two expressions, brought to their joint type. -/
def Expr.balanced (N : Numerics) (store : String → Option Literal) (l r : Expr) :
    Option (Literal × Literal) := do
  let u ← l.eval N store
  let v ← r.eval N store
  N.balance u v

section Values

variable {N : Numerics} {store store' : String → Option Literal}

theorem Expr.eval_arith (op : Arith) (l r : Expr) :
    (Expr.arith op l r).eval N store =
      (Expr.balanced N store l r).bind fun q => N.arith op q.1 q.2 := by
  simp [Expr.eval, Expr.balanced, Option.bind_assoc]

theorem Cond.eval_rel (op : Relation) (l r : Expr) :
    (Cond.rel op l r).eval N store =
      (Expr.balanced N store l r).bind fun q => N.relate op q.1 q.2 := by
  simp [Cond.eval, Expr.balanced, Option.bind_assoc]

/-- The value of an expression depends on the variables that it mentions only. -/
theorem Expr.eval_congr {e : Expr} (h : ∀ y ∈ e.names, store' y = store y) :
    e.eval N store' = e.eval N store := by
  induction e with
  | lit v => rfl
  | var name => exact h name (by simp [Expr.names])
  | arith op l r ihl ihr =>
    obtain ⟨hl, hr⟩ := List.forall_mem_append.1 h
    simp only [Expr.eval, ihl hl, ihr hr]
  | cast ty e ih => simp only [Expr.eval, ih h]

theorem Cond.eval_congr {c : Cond} (h : ∀ y ∈ c.names, store' y = store y) :
    c.eval N store' = c.eval N store := by
  induction c with
  | or l r ihl ihr =>
    obtain ⟨hl, hr⟩ := List.forall_mem_append.1 h
    simp only [Cond.eval, ihl hl, ihr hr]
  | and l r ihl ihr =>
    obtain ⟨hl, hr⟩ := List.forall_mem_append.1 h
    simp only [Cond.eval, ihl hl, ihr hr]
  | not c ih => simp only [Cond.eval, ih h]
  | rel op l r =>
    obtain ⟨hl, hr⟩ := List.forall_mem_append.1 h
    simp only [Cond.eval, Expr.eval_congr hl, Expr.eval_congr hr]

/-- An expression over variables in scope has the same value in worlds that agree there. -/
theorem World.SameOn.eval_expr {G : Scope} {w u : World} (h : w.SameOn G u) {e : Expr}
    (he : ∀ y ∈ e.names, G.find? y ≠ none) : e.eval N u.store = e.eval N w.store :=
  Expr.eval_congr fun y hy => h.store (he y hy)

theorem World.SameOn.eval_cond {G : Scope} {w u : World} (h : w.SameOn G u) {c : Cond}
    (hc : ∀ y ∈ c.names, G.find? y ≠ none) : c.eval N u.store = c.eval N w.store :=
  Cond.eval_congr fun y hy => h.store (hc y hy)

/-- Values whose types are known are brought to the joint type one by one. -/
theorem Numerics.balance_eq {l r : Option Literal} {tl tr : Scalar}
    (hl : ∀ u, l = some u → u.ty = tl) (hr : ∀ v, r = some v → v.ty = tr) :
    (do let u ← l; let v ← r; N.balance u v) =
      (do let a ← l.bind (N.convert (tl.join tr))
          let b ← r.bind (N.convert (tl.join tr))
          return (a, b)) := by
  cases l with
  | none => rfl
  | some u =>
    cases r with
    | none => simp
    | some v =>
      obtain rfl := hl u rfl
      obtain rfl := hr v rfl
      rfl

theorem Numerics.ty_of_balance {u v a b : Literal} (h : N.balance u v = some (a, b)) :
    a.ty = u.ty.join v.ty := by
  obtain ⟨a', ha, h⟩ := Option.bind_eq_some_iff.1 h
  obtain ⟨b', -, h⟩ := Option.bind_eq_some_iff.1 h
  cases h
  exact N.ty_of_convert ha

end Values

/-- The value of an expression has the type that lowering finds. The variables are those of a scope
`G`; lowering may have added temporaries to it. -/
theorem Expr.ty_of_eval {N : Numerics} {G : Scope} {w : World} (hw : w.Fits G) {e : Expr}
    (hn : ∀ y ∈ e.names, G.find? y ≠ none) {s t : NameSupply} {x : Lowered} (hG : G ≤ s.scope)
    (h : e.lower s = .ok (x, t)) {v : Literal} (hv : e.eval N w.store = some v) : v.ty = x.ty := by
  induction e generalizing s x t v with
  | lit u =>
    obtain ⟨rfl, -⟩ := Expr.lower_lit_ok h
    obtain rfl := Option.some.inj hv
    rfl
  | var name =>
    obtain ⟨hty, -, -, -⟩ := Expr.lower_var_ok h
    exact hw hv (Scope.find?_of_le hG (hn name (by simp [Expr.names])) hty)
  | arith op l r ihl ihr =>
    obtain ⟨ops, u, ⟨right, s₁, left, s₂, hright, hleft, hops⟩, -, rfl⟩ := Expr.lower_arith_ok h
    obtain ⟨wl, lhs, u', wr, rhs, -, -, rfl⟩ := Lowered.balance_ok hops
    obtain ⟨hnl, hnr⟩ := List.forall_mem_append.1 hn
    have hG₁ := hG.trans (NameSupply.scope_mono (r.adds_lower hright))
    obtain ⟨a, ha, hv⟩ := Option.bind_eq_some_iff.1 hv
    obtain ⟨b, hb, hv⟩ := Option.bind_eq_some_iff.1 hv
    obtain ⟨q, hq, hv⟩ := Option.bind_eq_some_iff.1 hv
    calc v.ty = q.1.ty := N.ty_of_arith hv
      _ = a.ty.join b.ty := N.ty_of_balance hq
      _ = left.ty.join right.ty := by rw [ihl hnl hG₁ hleft ha, ihr hnr hG hright hb]
  | cast ty e ih =>
    obtain ⟨u, -, hv⟩ := Option.bind_eq_some_iff.1 hv
    rw [N.ty_of_convert hv]
    rcases Expr.lower_cast_ok h with ⟨rfl, -⟩ | ⟨y, u', -, -, -, rfl⟩
    · rfl
    · rfl

/-! ### Running code -/

/-- Code that a machine runs: its lines, where its labels are, and a scope in which it is well
typed. -/
structure Installation where
  numerics : Numerics
  lines : List (Instr ℕ)
  address : Label → Option ℕ
  scope : Scope
  wellTyped : ∀ i ∈ lines, i.WellTyped scope

namespace Installation

variable (I : Installation)

/-- A step of the machine. -/
def step : Config → Option Config := Config.step I.numerics I.lines

/-- The code stands on the lines from `a` on. -/
abbrev Placed (a : ℕ) (code : List Item) : Prop := QuadCode.Placed I.lines I.address a code

/-- The machine gets from line `a` to line `b` and changes no variable in scope. -/
structure Runs (G : Scope) (a b : ℕ) (w u : World) : Prop where
  reaches : Reaches I.step ⟨a, w⟩ ⟨b, u⟩
  same : w.SameOn G u

/-- The machine sticks before it changes a variable in scope. -/
def Sticks (G : Scope) (a : ℕ) (w : World) : Prop :=
  ∃ c, Reaches I.step ⟨a, w⟩ c ∧ c.Stuck I.numerics I.lines ∧ w.SameOn G c.world

/-- The machine gets from line `a` to line `b` and to a world with a property, or there is a reason
why it sticks. -/
def Goes (G : Scope) (a b : ℕ) (w : World) (Q : World → Prop) (reason : Prop) : Prop :=
  (∃ u, I.Runs G a b w u ∧ Q u) ∨ reason ∧ I.Sticks G a w

variable {I} {G H : Scope} {a b c : ℕ} {w u v : World} {Q Q' : World → Prop} {D D' : Prop}

theorem Runs.refl (G : Scope) (a : ℕ) (w : World) : I.Runs G a a w w :=
  ⟨Relation.ReflTransGen.refl, World.SameOn.refl G w⟩

theorem Runs.mono (h : I.Runs H a b w u) (hle : G ≤ H) : I.Runs G a b w u :=
  ⟨h.reaches, h.same.mono hle⟩

theorem Runs.trans (h : I.Runs G a b w u) (h' : I.Runs G b c u v) : I.Runs G a c w v :=
  ⟨h.reaches.trans h'.reaches, h.same.trans h'.same⟩

theorem Runs.sticks (h : I.Runs G a b w u) (h' : I.Sticks G b u) : I.Sticks G a w := by
  obtain ⟨d, hd, hstuck, hsame⟩ := h'
  exact ⟨d, h.reaches.trans hd, hstuck, h.same.trans hsame⟩

theorem Sticks.mono (h : I.Sticks H a w) (hle : G ≤ H) : I.Sticks G a w := by
  obtain ⟨d, hd, hstuck, hsame⟩ := h
  exact ⟨d, hd, hstuck, hsame.mono hle⟩

theorem Goes.refl (G : Scope) (a : ℕ) (hw : Q w) : I.Goes G a a w Q D :=
  Or.inl ⟨w, Runs.refl G a w, hw⟩

/-- Code in sequence. More may be in scope for the code that follows. -/
theorem Goes.andThen (h : I.Goes G a b w Q D) (hle : G ≤ H) (hD : D → D')
    (hnext : ∀ u, I.Runs G a b w u → Q u → I.Goes H b c u Q' D') : I.Goes G a c w Q' D' := by
  rcases h with ⟨u, hrun, hu⟩ | ⟨hd, hsticks⟩
  · rcases hnext u hrun hu with ⟨v, hrun', hv⟩ | ⟨hd, hsticks⟩
    · exact Or.inl ⟨v, hrun.trans (hrun'.mono hle), hv⟩
    · exact Or.inr ⟨hd, hrun.sticks (hsticks.mono hle)⟩
  · exact Or.inr ⟨hD hd, hsticks⟩

theorem Goes.imp (h : I.Goes G a b w Q D) (hQ : ∀ u, I.Runs G a b w u → Q u → Q' u)
    (hD : D → D') : I.Goes G a b w Q' D' := by
  rcases h with ⟨u, hrun, hu⟩ | ⟨hd, hsticks⟩
  · exact Or.inl ⟨u, hrun, hQ u hrun hu⟩
  · exact Or.inr ⟨hD hd, hsticks⟩

variable {i : Instr ℕ}

theorem step_of_next (hi : I.lines[a]? = some i) (h : i.exec I.numerics w = some (.next, u)) :
    I.step ⟨a, w⟩ = some ⟨a + 1, u⟩ :=
  Config.step_eq_some_iff.2 ⟨i, hi, Or.inl ⟨h, rfl⟩⟩

theorem step_of_goto (hi : I.lines[a]? = some i) (h : i.exec I.numerics w = some (.goto b, u)) :
    I.step ⟨a, w⟩ = some ⟨b, u⟩ :=
  Config.step_eq_some_iff.2 ⟨i, hi, Or.inr h⟩

theorem line_of_jump {l : Label}
    (h : ∃ j, (Instr.jump l).mapTarget I.address = some j ∧ I.lines[a]? = some j)
    (hl : I.address l = some b) : I.lines[a]? = some (.jump b) := by
  obtain ⟨j, hj, hline⟩ := h
  simp only [Instr.mapTarget, hl, Option.bind_eq_bind, Option.bind_some, Option.pure_def,
    Option.some.injEq] at hj
  rw [hline, hj]

theorem line_of_jumpIfZero {l : Label} {o : Operand}
    (h : ∃ j, (Instr.jumpIfZero l o).mapTarget I.address = some j ∧ I.lines[a]? = some j)
    (hl : I.address l = some b) : I.lines[a]? = some (.jumpIfZero b o) := by
  obtain ⟨j, hj, hline⟩ := h
  simp only [Instr.mapTarget, hl, Option.bind_eq_bind, Option.bind_some, Option.pure_def,
    Option.some.injEq] at hj
  rw [hline, hj]

theorem sticks_of_exec (hi : I.lines[a]? = some i) (h : i.exec I.numerics w = none) :
    I.Sticks G a w :=
  ⟨⟨a, w⟩, Relation.ReflTransGen.refl, Config.stuck_of_exec hi h, World.SameOn.refl G w⟩

/-- An instruction that writes to a variable outside the scope. -/
theorem goes_of_write {α : Type} {r : Option α} {dst : String} {f : α → Literal}
    (hi : I.lines[a]? = some i) (hdst : G.find? dst = none)
    (h : i.exec I.numerics w = r.map fun v => (.next, w.set dst (f v))) :
    I.Goes G a (a + 1) w (fun u => ∃ v, r = some v ∧ u = w.set dst (f v)) (r = none) := by
  cases r with
  | none => exact Or.inr ⟨rfl, sticks_of_exec hi h⟩
  | some v =>
    refine Or.inl ⟨w.set dst (f v), ⟨Relation.ReflTransGen.single ?_, ?_⟩, v, rfl, rfl⟩
    · exact step_of_next hi h
    · exact World.SameOn.set_of_none hdst w (f v)

end Installation

/-! ### Expressions -/

variable {I : Installation} {s t : NameSupply} {G : Scope} {a : ℕ} {w : World}

theorem Instr.exec_arith {N : Numerics} {op : Arith} {ty : Scalar} {dst : String}
    {lhs rhs : Operand} : (Instr.arith op ty dst lhs rhs : Instr ℕ).exec N w =
      ((w.fetchBoth N ty lhs rhs).bind fun q => N.arith op q.1 q.2).map
        fun v => (.next, w.set dst v) := by
  simp [Instr.exec, World.fetchBoth, Option.bind_assoc, Option.map_eq_bind]

theorem Instr.exec_compare {N : Numerics} {op : Comparison} {ty : Scalar} {dst : String}
    {lhs rhs : Operand} : (Instr.compare op ty dst lhs rhs : Instr ℕ).exec N w =
      ((w.fetchBoth N ty lhs rhs).bind fun q => N.compare op q.1 q.2).map
        fun p => (.next, w.set dst (.int (flag p))) := by
  simp [Instr.exec, World.fetchBoth, Option.bind_assoc, Option.map_eq_bind]

theorem Instr.exec_convert {N : Numerics} {ty : Scalar} {dst : String} {src : Operand} :
    (Instr.convert ty dst src : Instr ℕ).exec N w =
      (w.fetch N ty src).map fun v => (.next, w.set dst v) := by
  simp [Instr.exec, Option.map_eq_bind]

theorem Value.widen_goes {v : Value} {ty : Scalar} {code : List Item} {o : Operand}
    (h : v.widen ty s = .ok ((code, o), t)) (hp : I.Placed a code) :
    I.Goes s.scope a (a + lineCount code) w
      (fun u => u.fetch I.numerics ty o = w.fetch I.numerics ty v.operand)
      (w.fetch I.numerics ty v.operand = none) := by
  rcases Value.widen_ok h with ⟨-, rfl, rfl, rfl, rfl⟩ | ⟨-, rfl, rfl, rfl⟩
  · obtain ⟨⟨j, hj, hline⟩, -⟩ := hp
    obtain rfl := Option.some.inj hj
    refine (Installation.goes_of_write hline (s.find?_freshTemp .float)
      Instr.exec_convert).imp ?_ id
    rintro _ - ⟨u, hu, rfl⟩
    rw [hu]
    exact World.fetch_of_value (by simp) (World.ty_fetch hu)
  · exact Installation.Goes.refl _ _ rfl

/-- The variable that an expression is, if it has no code. A cast to the type that the variable has
already makes no difference. -/
def Expr.bare? (types : String → Option Scalar) : Expr → Option String
  | var name => some name
  | cast ty e => (e.bare? types).filter fun y => types y = some ty
  | _ => none

theorem Expr.mem_names_of_bare? {types : String → Option Scalar} {e : Expr} {y : String}
    (h : e.bare? types = some y) : y ∈ e.names := by
  induction e with
  | lit v => cases h
  | var name =>
    obtain rfl := Option.some.inj h
    exact List.mem_singleton_self _
  | arith op l r => cases h
  | cast ty e ih => exact ih (Option.filter_eq_some_iff.1 h).1

/-- The type that lowering finds for a variable is the type of the variable. -/
theorem Expr.find?_of_bare? {e : Expr} {x : Lowered} (h : e.lower s = .ok (x, t))
    (hG : G ≤ s.scope) (hn : ∀ y ∈ e.names, G.find? y ≠ none) {y : String}
    (hy : e.bare? G.find? = some y) : G.find? y = some x.ty := by
  cases e with
  | lit v => cases hy
  | var name =>
    obtain rfl := Option.some.inj hy
    obtain ⟨hty, -, -, -⟩ := Expr.lower_var_ok h
    exact Scope.find?_of_le hG (hn name (by simp [Expr.names])) hty
  | arith op l r => cases hy
  | cast ty e =>
    have hty : G.find? y = some ty := by simpa using (Option.filter_eq_some_iff.1 hy).2
    rcases Expr.lower_cast_ok h with ⟨rfl, -⟩ | ⟨z, u, -, -, -, rfl⟩
    · exact hty
    · exact hty

/-- The code of the expression computes its value. Without a value the machine sticks, or the value
is that of a variable without one. The expression is over the variables of a scope `G`; what the
store has for other names does not matter, since temporaries are written before they are read. -/
def Expr.GoesWell (I : Installation) (G : Scope) (e : Expr) : Prop :=
  ∀ ⦃s x t a w⦄, e.lower s = .ok (x, t) → I.Placed a x.code → G ≤ s.scope → w.Fits G →
    (∀ y ∈ e.names, G.find? y ≠ none) →
    I.Goes s.scope a (a + lineCount x.code) w
      (fun u => u.value x.operand = e.eval I.numerics w.store ∧
        (e.eval I.numerics w.store = none → ∃ y, e.bare? G.find? = some y ∧ w.store y = none))
      (e.eval I.numerics w.store = none)

theorem Expr.Operands.goes {l r : Expr} (hl : l.GoesWell I G) (hr : r.GoesWell I G)
    {ops : QuadCode.Operands} (h : Expr.Operands l r s ops t) (hp : I.Placed a ops.code)
    (hG : G ≤ s.scope) (hw : w.Fits G) (hnl : ∀ y ∈ l.names, G.find? y ≠ none)
    (hnr : ∀ y ∈ r.names, G.find? y ≠ none) :
    I.Goes s.scope a (a + lineCount ops.code) w
      (fun u => u.fetchBoth I.numerics ops.ty ops.lhs ops.rhs =
        Expr.balanced I.numerics w.store l r)
      (Expr.balanced I.numerics w.store l r = none) := by
  obtain ⟨right, s₁, left, s₂, hright, hleft, hops⟩ := h
  obtain ⟨wl, lhs, s₃, wr, rhs, hwl, hwr, rfl⟩ := Lowered.balance_ok hops
  have hle₁ := NameSupply.scope_mono (r.adds_lower hright)
  have hle₂ := NameSupply.scope_mono (l.adds_lower hleft)
  have hle₃ := NameSupply.scope_mono (Value.adds_widen _ _ hwl)
  have htr := (Expr.lower_typed hright).mono hle₂
  have htl := Expr.lower_typed hleft
  simp only [placed_append, lineCount_append, ← add_assoc] at hp ⊢
  obtain ⟨⟨⟨hpr, hpl⟩, hpwl⟩, hpwr⟩ := hp
  refine (hr hright hpr hG hw hnr).andThen hle₁ ?_ fun w₁ hrun₁ hv₁ => ?_
  · intro hnone
    simp [Expr.balanced, hnone]
  have hsame₁ := hrun₁.same.mono hG
  have hl₁ : l.eval I.numerics w₁.store = l.eval I.numerics w.store := hsame₁.eval_expr hnl
  refine (hl hleft hpl (hG.trans hle₁) (hsame₁.fits hw) hnl).andThen hle₂ ?_ fun w₂ hrun₂ hv₂ => ?_
  · intro hnone
    simp [Expr.balanced, ← hl₁, hnone]
  -- here both values are known, so their types are the static ones
  have hbal : Expr.balanced I.numerics w.store l r =
      w₂.fetchBoth I.numerics (left.ty.join right.ty) left.operand right.operand := by
    have hl₂ : w₂.value left.operand = l.eval I.numerics w.store := hv₂.1.trans hl₁
    have hr₂ : w₂.value right.operand = r.eval I.numerics w.store :=
      (hrun₂.same.value_eq (Expr.lower_typed hright).value).trans hv₁.1
    rw [World.fetchBoth, World.fetch, World.fetch, hl₂, hr₂]
    refine Numerics.balance_eq (fun u hu => ?_) fun v hv => ?_
    · exact Expr.ty_of_eval hw hnl (hG.trans hle₁) hleft hu
    · exact Expr.ty_of_eval hw hnr hG hright hv
  rw [hbal]
  refine (Value.widen_goes hwl hpwl).andThen hle₃ ?_ fun w₃ hrun₃ hv₃ => ?_
  · intro hnone
    simp [World.fetchBoth, hnone]
  have hr₃ : w₃.fetch I.numerics (left.ty.join right.ty) right.operand =
      w₂.fetch I.numerics (left.ty.join right.ty) right.operand := by
    rw [World.fetch, World.fetch, hrun₃.same.value_eq htr.value]
  refine (Value.widen_goes hwr hpwr).imp (fun w₄ hrun₄ hv₄ => ?_) ?_
  · -- widening the right operand writes to a new temporary, so the left one is still there
    have hlhs := (Value.widen_typed hwl htl.value fun hf => by simp [Lowered.ty, hf]).2
    have hl₄ : w₄.fetch I.numerics (left.ty.join right.ty) lhs =
        w₃.fetch I.numerics (left.ty.join right.ty) lhs := by
      rw [World.fetch, World.fetch, hrun₄.same.value_eq hlhs]
    rw [World.fetchBoth, hl₄, hv₃, hv₄, hr₃, World.fetchBoth]
  · intro hnone
    simp [World.fetchBoth, ← hr₃, hnone]

theorem Expr.goes (e : Expr) : e.GoesWell I G := by
  induction e with
  | lit v =>
    intro s x t a w h _ _ _ _
    obtain ⟨rfl, rfl⟩ := Expr.lower_lit_ok h
    exact Installation.Goes.refl _ _ ⟨rfl, fun hv => absurd hv (Option.some_ne_none v)⟩
  | var name =>
    intro s x t a w h _ _ _ _
    obtain ⟨-, hcode, hop, rfl⟩ := Expr.lower_var_ok h
    rw [hcode, hop]
    exact Installation.Goes.refl _ _ ⟨rfl, fun hv => ⟨name, rfl, hv⟩⟩
  | arith op l r ihl ihr =>
    intro s x t a w h hp hG hw hn
    obtain ⟨ops, u, hops, rfl, rfl⟩ := Expr.lower_arith_ok h
    obtain ⟨hnl, hnr⟩ := List.forall_mem_append.1 hn
    simp only [Lowered.code_inVar, placed_append, lineCount_append, ← add_assoc] at hp ⊢
    obtain ⟨hpo, ⟨j, hj, hline⟩, -⟩ := hp
    obtain rfl := Option.some.inj hj
    rw [Expr.eval_arith]
    refine (hops.goes ihl ihr hpo hG hw hnl hnr).andThen (NameSupply.scope_mono hops.le) ?_
      fun w₁ hrun₁ hv₁ => ?_
    · intro hnone
      rw [hnone]
      rfl
    refine (Installation.goes_of_write hline (u.find?_freshTemp ops.ty) Instr.exec_arith).imp ?_ ?_
    · rintro _ - ⟨v, hv, rfl⟩
      rw [hv₁] at hv
      simp [hv]
    · rw [hv₁]
      exact id
  | cast ty e ih =>
    intro s x t a w h hp hG hw hn
    rcases Expr.lower_cast_ok h with ⟨rfl, hx⟩ | ⟨y, u, hy, hne, rfl, rfl⟩
    · refine (ih hx hp hG hw hn).imp (fun w₁ hrun₁ hv₁ => ?_) fun hnone => ?_
      · -- the value has the type already
        cases hv : e.eval I.numerics w.store with
        | none =>
          obtain ⟨y, hy, hnone⟩ := hv₁.2 hv
          have hty := Expr.find?_of_bare? hx hG hn hy
          refine ⟨by simpa [Expr.eval, hv] using hv₁.1, fun _ => ⟨y, ?_, hnone⟩⟩
          exact Option.filter_eq_some_iff.2 ⟨hy, by simpa using hty⟩
        | some v =>
          rw [hv] at hv₁
          have hty := Expr.ty_of_eval (e := e) hw hn hG hx hv
          simp [Expr.eval, hv, hv₁.1, I.numerics.convert_self hty]
      · simp [Expr.eval, hnone]
    · simp only [Lowered.code_inVar, placed_append, lineCount_append, ← add_assoc] at hp ⊢
      obtain ⟨hpy, ⟨j, hj, hline⟩, -⟩ := hp
      obtain rfl := Option.some.inj hj
      refine (ih hy hpy hG hw hn).andThen (NameSupply.scope_mono (e.adds_lower hy)) ?_
        fun w₁ hrun₁ hv₁ => ?_
      · intro hnone
        simp [Expr.eval, hnone]
      have heval : (Expr.cast ty e).eval I.numerics w.store =
          w₁.fetch I.numerics ty y.operand := by rw [World.fetch, hv₁.1]; rfl
      rw [heval]
      refine (Installation.goes_of_write hline (u.find?_freshTemp ty) Instr.exec_convert).imp ?_ id
      rintro _ - ⟨v, hv, rfl⟩
      simp [hv]

/-! ### Conditions -/

/-- The machine gets to the truth value of a condition, or the condition has none and it sticks. -/
def Installation.Decides (I : Installation) (G : Scope) (a b : ℕ) (w : World) (o : Operand)
    (r : Option Bool) : Prop :=
  I.Goes G a b w (fun u => ∃ p, r = some p ∧ u.value o = some (.int (flag p))) (r = none)

/-- The machine gets to the truth values of two conditions, or one has none and it sticks. -/
def Installation.DecidesBoth (I : Installation) (G : Scope) (a b : ℕ) (w : World)
    (left right : Operand) (l r : Option Bool) : Prop :=
  I.Goes G a b w (fun u => ∃ p q, l = some p ∧ r = some q ∧ u.value left = some (.int (flag p)) ∧
    u.value right = some (.int (flag q))) (l = none ∨ r = none)

theorem World.fetchBoth_int {N : Numerics} {lhs rhs : Operand} {m n : Int64}
    (hl : w.value lhs = some (.int m)) (hr : w.value rhs = some (.int n)) :
    w.fetchBoth N .int lhs rhs = some (.int m, .int n) := by
  have hl' : w.fetch N .int lhs = some (.int m) := fetch_of_value hl rfl
  have hr' : w.fetch N .int rhs = some (.int n) := fetch_of_value hr rfl
  simp [fetchBoth, hl', hr']

theorem Installation.step_of_jumpIfZero {b : ℕ} {o : Operand} {p : Bool}
    (hi : I.lines[a]? = some (.jumpIfZero b o)) (hv : w.value o = some (.int (flag p))) :
    I.step ⟨a, w⟩ = some ⟨if p then a + 1 else b, w⟩ := by
  have hfetch : w.fetch I.numerics .int o = some (.int (flag p)) := World.fetch_of_value hv rfl
  cases p with
  | false => exact step_of_goto hi (by simp [Instr.exec, hfetch])
  | true => exact step_of_next hi (by simp [Instr.exec, hfetch])

theorem Installation.goes_of_step {G : Scope} {b : ℕ} {D : Prop}
    (h : I.step ⟨a, w⟩ = some ⟨b, w⟩) : I.Goes G a b w (fun u => u = w) D :=
  Or.inl ⟨w, ⟨Relation.ReflTransGen.single h, World.SameOn.refl G w⟩, rfl⟩

/-- A comparison of integers that are there has a result. -/
theorem Installation.goes_of_compare {G : Scope} {op : Comparison} {dst : String}
    {lhs rhs : Operand} {m n : Int64} {D : Prop}
    (hi : I.lines[a]? = some (.compare op .int dst lhs rhs)) (hdst : G.find? dst = none)
    (hl : w.value lhs = some (.int m)) (hr : w.value rhs = some (.int n)) :
    I.Goes G a (a + 1) w (fun u => u = w.set dst (.int (flag (op.ofInts m n)))) D := by
  refine (goes_of_write hi hdst Instr.exec_compare).imp ?_ ?_
  · rintro _ - ⟨p, hp, rfl⟩
    rw [World.fetchBoth_int hl hr] at hp
    rw [← Option.some.inj hp]
  · rw [World.fetchBoth_int hl hr]
    exact fun hnone => absurd hnone (Option.some_ne_none _)

theorem Comparison.goes {op : Comparison} {l r : Expr} {x : Lowered}
    (h : op.lower l r s = .ok (x, t)) (hp : I.Placed a x.code) (hG : G ≤ s.scope) (hw : w.Fits G)
    (hnl : ∀ y ∈ l.names, G.find? y ≠ none) (hnr : ∀ y ∈ r.names, G.find? y ≠ none) :
    I.Decides s.scope a (a + lineCount x.code) w x.operand
      ((Expr.balanced I.numerics w.store l r).bind fun q => I.numerics.compare op q.1 q.2) := by
  obtain ⟨ops, u, hops, rfl, rfl⟩ := Comparison.lower_ok h
  simp only [Lowered.code_inVar, placed_append, lineCount_append, ← add_assoc] at hp ⊢
  obtain ⟨hpo, ⟨j, hj, hline⟩, -⟩ := hp
  obtain rfl := Option.some.inj hj
  refine (hops.goes l.goes r.goes hpo hG hw hnl hnr).andThen (NameSupply.scope_mono hops.le) ?_
    fun w₁ hrun₁ hv₁ => ?_
  · intro hnone
    rw [hnone]
    rfl
  refine (Installation.goes_of_write hline (u.find?_freshTemp .int) Instr.exec_compare).imp ?_ ?_
  · rintro _ - ⟨p, hp, rfl⟩
    rw [hv₁] at hp
    exact ⟨p, hp, by simp⟩
  · rw [hv₁]
    exact id

/-- The right truth value is computed first and still there after the left one. -/
theorem Installation.decidesBoth {G H : Scope} {left right : Lowered} {l r : Option Bool}
    (hp : I.Placed a (right.code ++ left.code))
    (hr : I.Placed a right.code →
      I.Decides G a (a + lineCount right.code) w right.operand r)
    (hl : ∀ u, I.Runs G a (a + lineCount right.code) w u →
      I.Placed (a + lineCount right.code) left.code →
      I.Decides H (a + lineCount right.code) (a + lineCount (right.code ++ left.code)) u
        left.operand l)
    (hle : G ≤ H) (htr : right.operand.HasType H .int) :
    I.DecidesBoth G a (a + lineCount (right.code ++ left.code)) w left.operand right.operand
      l r := by
  obtain ⟨hpr, hpl⟩ := placed_append.1 hp
  refine (hr hpr).andThen hle Or.inr fun u hrun hu => ?_
  obtain ⟨q, rfl, hq⟩ := hu
  refine (hl u hrun hpl).imp (fun v hrun' hv => ?_) Or.inl
  obtain ⟨p, rfl, hp⟩ := hv
  exact ⟨p, q, rfl, rfl, hp, (hrun'.same.value_eq htr).trans hq⟩

theorem Lowered.disjoin_goes {G : Scope} {left right x : Lowered} {l r : Option Bool}
    (h : left.disjoin right s = .ok (x, t)) (hp : I.Placed a x.code) (hle : G ≤ s.scope)
    (hboth : I.Placed a (right.code ++ left.code) →
      I.DecidesBoth G a (a + lineCount (right.code ++ left.code)) w left.operand right.operand
        l r) :
    I.Decides G a (a + lineCount x.code) w x.operand (do return (← l) || (← r)) := by
  obtain ⟨rfl, rfl⟩ := Lowered.disjoin_ok h
  obtain ⟨hpboth, ⟨j₁, hj₁, hline₁⟩, ⟨j₂, hj₂, hline₂⟩, -⟩ := placed_append.1 hp
  obtain rfl := Option.some.inj hj₁
  obtain rfl := Option.some.inj hj₂
  rw [Lowered.code_inVar, lineCount_append, ← add_assoc]
  refine (hboth hpboth).andThen hle ?_ fun u hrun hu => ?_
  · rintro (rfl | rfl)
    · rfl
    · cases l <;> rfl
  obtain ⟨p, q, rfl, rfl, hl, hr⟩ := hu
  have hsum : ((u.fetchBoth I.numerics .int left.operand right.operand).bind
      fun q => I.numerics.arith .add q.1 q.2) = some (.int (flag p + flag q)) := by
    rw [World.fetchBoth_int hl hr]
    simp [Numerics.arith, I.numerics.add_flags]
  refine (Installation.goes_of_write hline₁ (s.find?_freshTemp .int) Instr.exec_arith).andThen
    (NameSupply.scope_mono (s.le_freshTemp .int)) ?_ fun u₁ _ hu₁ => ?_
  · rw [hsum]
    exact fun hnone => absurd hnone (Option.some_ne_none _)
  obtain ⟨v, hv, rfl⟩ := hu₁
  obtain rfl := Option.some.inj (hsum.symm.trans hv)
  refine (Installation.goes_of_compare (n := 0) hline₂ (NameSupply.find?_freshTemp _ .int)
    (by simp; rfl) rfl).imp ?_ id
  rintro _ - rfl
  refine ⟨p || q, rfl, ?_⟩
  -- the sum of two truth values is zero only if both are
  rw [show Comparison.ofInts .ne (flag p + flag q) 0 = (p || q) by cases p <;> cases q <;> decide]
  simp

theorem Lowered.conjoin_goes {G : Scope} {left right x : Lowered} {l r : Option Bool}
    (h : left.conjoin right s = .ok (x, t)) (hp : I.Placed a x.code) (hle : G ≤ s.scope)
    (htr : right.operand.HasType s.scope .int)
    (hboth : I.Placed a (right.code ++ left.code) →
      I.DecidesBoth G a (a + lineCount (right.code ++ left.code)) w left.operand right.operand
        l r) :
    I.Decides G a (a + lineCount x.code) w x.operand (do return (← l) && (← r)) := by
  obtain ⟨rfl, rfl⟩ := Lowered.conjoin_ok h
  obtain ⟨hpboth, ⟨j₁, hj₁, hline₁⟩, hjump, ⟨j₃, hj₃, hline₃⟩, hkeep, -⟩ := placed_append.1 hp
  obtain rfl := Option.some.inj hj₁
  obtain rfl := Option.some.inj hj₃
  have hline₂ := Installation.line_of_jumpIfZero hjump hkeep
  rw [Lowered.code_inVar, lineCount_append, ← add_assoc]
  refine (hboth hpboth).andThen hle ?_ fun u hrun hu => ?_
  · rintro (rfl | rfl)
    · rfl
    · cases l <;> rfl
  obtain ⟨p, q, rfl, rfl, hl, hr⟩ := hu
  refine (Installation.goes_of_compare (n := 0) hline₁ (s.find?_freshTemp .int) hl rfl).andThen
    le_rfl id fun u₁ hrun₁ hu₁ => ?_
  subst hu₁
  rw [show Comparison.ofInts .ne (flag p) 0 = p by cases p <;> decide] at hrun₁ ⊢
  have hjump := Installation.step_of_jumpIfZero hline₂ (p := p)
    (w := u.set (s.freshTemp .int).1 (.int (flag p))) (by simp)
  refine (Installation.goes_of_step hjump).andThen le_rfl id fun u₂ _ hu₂ => ?_
  subst hu₂
  cases p with
  | false =>
    -- the jump has passed the right truth value by
    exact Installation.Goes.refl _ _ ⟨false, rfl, by simp⟩
  | true =>
    have hr₁ := (hrun₁.same.value_eq htr).trans hr
    refine (Installation.goes_of_compare (n := 0) hline₃ (s.find?_freshTemp .int) hr₁ rfl).imp ?_ id
    rintro _ - rfl
    refine ⟨q, rfl, ?_⟩
    rw [show Comparison.ofInts .ne (flag q) 0 = q by cases q <;> decide]
    simp

theorem Lowered.negate_goes {G : Scope} {x y : Lowered} {r : Option Bool}
    (h : x.negate s = .ok (y, t)) (hp : I.Placed a y.code) (hle : G ≤ s.scope)
    (hx : I.Placed a x.code → I.Decides G a (a + lineCount x.code) w x.operand r) :
    I.Decides G a (a + lineCount y.code) w y.operand (do return !(← r)) := by
  obtain ⟨rfl, rfl⟩ := Lowered.negate_ok h
  obtain ⟨hpx, ⟨j, hj, hline⟩, -⟩ := placed_append.1 hp
  obtain rfl := Option.some.inj hj
  rw [Lowered.code_inVar, lineCount_append, ← add_assoc]
  refine (hx hpx).andThen hle ?_ fun u hrun hu => ?_
  · rintro rfl
    rfl
  obtain ⟨p, rfl, hv⟩ := hu
  refine (Installation.goes_of_compare (n := 0) hline (s.find?_freshTemp .int) hv rfl).imp ?_ id
  rintro _ - rfl
  refine ⟨!p, rfl, ?_⟩
  rw [show Comparison.ofInts .eq (flag p) 0 = !p by cases p <;> decide]
  simp

/-- The operands are computed twice, to the same values. -/
theorem Comparison.lowerOrEqual_goes {strict : Comparison} {l r : Expr} {x : Lowered}
    (h : strict.lowerOrEqual l r s = .ok (x, t)) (hp : I.Placed a x.code) (hG : G ≤ s.scope)
    (hw : w.Fits G) (hnl : ∀ y ∈ l.names, G.find? y ≠ none)
    (hnr : ∀ y ∈ r.names, G.find? y ≠ none) :
    I.Decides s.scope a (a + lineCount x.code) w x.operand
      ((Expr.balanced I.numerics w.store l r).bind fun q => do
        return (← I.numerics.compare strict q.1 q.2) || (← I.numerics.compare .eq q.1 q.2)) := by
  simp only [Comparison.lowerOrEqual, Lower.bind_eq_ok_iff] at h
  obtain ⟨equal, s₁, hequal, less, s₂, hless, hx⟩ := h
  have hle₁ := NameSupply.scope_mono (Comparison.adds_lower _ l r hequal)
  have hle₂ := NameSupply.scope_mono (strict.adds_lower l r hless)
  have heq : ((Expr.balanced I.numerics w.store l r).bind fun q => do
      return (← I.numerics.compare strict q.1 q.2) || (← I.numerics.compare .eq q.1 q.2)) =
      (do return (← (Expr.balanced I.numerics w.store l r).bind
          fun q => I.numerics.compare strict q.1 q.2) ||
        (← (Expr.balanced I.numerics w.store l r).bind
          fun q => I.numerics.compare .eq q.1 q.2)) := by
    cases Expr.balanced I.numerics w.store l r <;> rfl
  rw [heq]
  refine Lowered.disjoin_goes hx hp (hle₁.trans hle₂) fun hpboth => ?_
  refine Installation.decidesBoth hpboth (fun hpe => ?_) (fun u hrun hpl => ?_) hle₁
    (Comparison.lower_typed hequal).operand
  · exact Comparison.goes hequal hpe hG hw hnl hnr
  · have hsame := hrun.same.mono hG
    have hbal : Expr.balanced I.numerics u.store l r = Expr.balanced I.numerics w.store l r := by
      rw [Expr.balanced, hsame.eval_expr hnl, hsame.eval_expr hnr, Expr.balanced]
    rw [lineCount_append, ← add_assoc, ← hbal]
    exact Comparison.goes hless hpl (hG.trans hle₁) (hsame.fits hw) hnl hnr

theorem Relation.goes {op : Relation} {l r : Expr} {x : Lowered}
    (h : op.lower l r s = .ok (x, t)) (hp : I.Placed a x.code) (hG : G ≤ s.scope) (hw : w.Fits G)
    (hnl : ∀ y ∈ l.names, G.find? y ≠ none) (hnr : ∀ y ∈ r.names, G.find? y ≠ none) :
    I.Decides s.scope a (a + lineCount x.code) w x.operand
      ((Cond.rel op l r).eval I.numerics w.store) := by
  rw [Cond.eval_rel]
  cases op
  case le => exact Comparison.lowerOrEqual_goes h hp hG hw hnl hnr
  case ge => exact Comparison.lowerOrEqual_goes h hp hG hw hnl hnr
  all_goals exact Comparison.goes h hp hG hw hnl hnr

theorem Cond.goes {c : Cond} {x : Lowered} (h : c.lower s = .ok (x, t)) (hp : I.Placed a x.code)
    (hG : G ≤ s.scope) (hw : w.Fits G) (hn : ∀ y ∈ c.names, G.find? y ≠ none) :
    I.Decides s.scope a (a + lineCount x.code) w x.operand (c.eval I.numerics w.store) := by
  induction c generalizing s x t a w with
  | or l r ihl ihr =>
    simp only [Cond.lower, Lower.bind_eq_ok_iff] at h
    obtain ⟨right, s₁, hr, left, s₂, hl, hx⟩ := h
    obtain ⟨hnl, hnr⟩ := List.forall_mem_append.1 hn
    have hle₁ := NameSupply.scope_mono (r.adds_lower hr)
    have hle₂ := NameSupply.scope_mono (l.adds_lower hl)
    refine Lowered.disjoin_goes hx hp (hle₁.trans hle₂) fun hpboth => ?_
    refine Installation.decidesBoth hpboth (fun hpr => ihr hr hpr hG hw hnr)
      (fun u hrun hpl => ?_) hle₁ (Cond.lower_typed hr).operand
    have hsame := hrun.same.mono hG
    rw [lineCount_append, ← add_assoc, ← hsame.eval_cond hnl]
    exact ihl hl hpl (hG.trans hle₁) (hsame.fits hw) hnl
  | and l r ihl ihr =>
    simp only [Cond.lower, Lower.bind_eq_ok_iff] at h
    obtain ⟨right, s₁, hr, left, s₂, hl, hx⟩ := h
    obtain ⟨hnl, hnr⟩ := List.forall_mem_append.1 hn
    have hle₁ := NameSupply.scope_mono (r.adds_lower hr)
    have hle₂ := NameSupply.scope_mono (l.adds_lower hl)
    have htr := (Cond.lower_typed hr).operand
    refine Lowered.conjoin_goes hx hp (hle₁.trans hle₂) (htr.mono hle₂) fun hpboth => ?_
    refine Installation.decidesBoth hpboth (fun hpr => ihr hr hpr hG hw hnr)
      (fun u hrun hpl => ?_) hle₁ htr
    have hsame := hrun.same.mono hG
    rw [lineCount_append, ← add_assoc, ← hsame.eval_cond hnl]
    exact ihl hl hpl (hG.trans hle₁) (hsame.fits hw) hnl
  | not c ih =>
    simp only [Cond.lower, Lower.bind_eq_ok_iff] at h
    obtain ⟨y, u, hy, hx⟩ := h
    exact Lowered.negate_goes hx hp (NameSupply.scope_mono (c.adds_lower hy))
      fun hpy => ih hy hpy hG hw hn
  | rel op l r =>
    obtain ⟨hnl, hnr⟩ := List.forall_mem_append.1 hn
    exact Relation.goes h hp hG hw hnl hnr

end QuadCode
