import QuadCode.Proofs.Paths
import QuadCode.Proofs.Stores

/-!
# Assignment before use

On every path through a finished program a temporary is written before it is
read, whatever the jumps on the way have tested.

* `Expr.lower_checks`: the code of an expression is checked if its variables are
  assigned;
* `Sure P n m V code W`: there is a choice for the labels from `n` up to `m` with
  which the code is checked, and other labels matter only as far as `P` goes. This
  composes along `++`, since labels are drawn in order (`Sure.append`);
* `Cond.lower_sure`, `Stmt.sureWell`: the labels of conditions and statements can
  be chosen. A label of a statement stands for the declared variables, and one of
  a conjunction for its operands and its flag too.

The main statement is `temporaries_assigned_before_use`.
-/

namespace QuadCode

/-! ### Expressions and conditions -/

/-- The variables of an operand. -/
def Operand.vars : Operand → Set String
  | var name => {name}
  | lit _ => ∅

theorem Instr.readVars_subset_iff {α : Type} {i : Instr α} {U : Set String} :
    i.readVars ⊆ U ↔ ∀ r ∈ i.reads, r.1.vars ⊆ U := by
  constructor
  · rintro h ⟨o, ty⟩ hr y hy
    cases o with
    | var name =>
      obtain rfl := Set.mem_singleton_iff.1 hy
      exact h ⟨ty, hr⟩
    | lit v => exact hy.elim
  · rintro h y ⟨ty, hy⟩
    exact h _ hy rfl

namespace Instr

variable {α : Type} {ty : Scalar} {dst : String} {src lhs rhs : Operand} {U : Set String}

theorem readVars_convert (h : src.vars ⊆ U) : (convert ty dst src : Instr α).readVars ⊆ U := by
  cases ty <;> simpa [readVars_subset_iff, reads] using h

theorem readVars_arith {op : Arith} (hl : lhs.vars ⊆ U) (hr : rhs.vars ⊆ U) :
    (arith op ty dst lhs rhs : Instr α).readVars ⊆ U :=
  readVars_subset_iff.2 (by simp [reads, hl, hr])

theorem readVars_compare {op : Comparison} (hl : lhs.vars ⊆ U) (hr : rhs.vars ⊆ U) :
    (compare op ty dst lhs rhs : Instr α).readVars ⊆ U :=
  readVars_subset_iff.2 (by simp [reads, hl, hr])

end Instr

section Straight

variable {s t : NameSupply} {known : Label → Set String} {V U : Set String} {c : List Item}

/-- Code followed by an instruction that writes a variable. -/
theorem Checks.append_instr {i : Instr Label} {y : String} (hc : Checks known V c U)
    (hreads : i.readVars ⊆ U) (hdst : i.dst? = some y) :
    Checks known V (c ++ [.instr i]) (U ∪ (Operand.var y).vars) := by
  have htarget : i.target? = none := by
    cases i with
    | jump l => cases hdst
    | jumpIfZero l cond => cases hdst
    | _ => rfl
  refine hc.append ⟨hreads, fun l hl => ?_, ?_⟩
  · rw [htarget] at hl
    cases hl
  · rintro z (hz | rfl) -
    · exact Or.inl hz
    · exact Or.inr hdst

/-- Code that tests a flag. -/
theorem Checks.jumpIfZero {l : Label} {o : Operand} (ho : o.vars ⊆ U) (hl : known l ⊆ U) :
    Checks known U [.instr (.jumpIfZero l o)] U := by
  refine ⟨Instr.readVars_subset_iff.2 (by simpa [Instr.reads] using ho), ?_, ?_⟩
  · rintro m hm
    obtain rfl := Option.some.inj hm
    exact hl
  · exact fun y hy _ => Or.inl hy

/-- Control does not get behind a jump. -/
theorem Checks.jump {l : Label} (hl : known l ⊆ U) (W : Set String) :
    Checks known U [.instr (.jump l)] W := by
  refine ⟨Instr.readVars_subset_iff.2 (by simp [Instr.reads]), ?_, ?_⟩
  · rintro m hm
    obtain rfl := Option.some.inj hm
    exact hl
  · exact fun y _ hfalls => by cases hfalls

theorem Checks.mark {l : Label} (hl : known l = U) : Checks known U [.mark l] U :=
  ⟨hl.subset, hl.superset⟩

theorem Value.widen_checks {v : Value} {ty : Scalar} {code : List Item} {o : Operand}
    (h : v.widen ty s = .ok ((code, o), t)) (hv : v.operand.vars ⊆ V)
    (known : Label → Set String) : Checks known V code (V ∪ o.vars) := by
  rcases Value.widen_ok h with ⟨-, -, rfl, rfl, rfl⟩ | ⟨-, rfl, rfl, rfl⟩
  · have hnil : Checks known V [] V := subset_rfl
    exact hnil.append_instr (Instr.readVars_convert hv) rfl
  · exact Set.union_subset subset_rfl hv

theorem Expr.Operands.checks {l r : Expr} {ops : QuadCode.Operands}
    (h : Expr.Operands l r s ops t)
    (hl : ∀ {s t : NameSupply} {x : Lowered} {V : Set String}, l.lower s = .ok (x, t) →
      (∀ y ∈ l.names, y ∈ V) → Checks known V x.code (V ∪ x.operand.vars))
    (hr : ∀ {s t : NameSupply} {x : Lowered} {V : Set String}, r.lower s = .ok (x, t) →
      (∀ y ∈ r.names, y ∈ V) → Checks known V x.code (V ∪ x.operand.vars))
    (hV : ∀ y ∈ l.names ++ r.names, y ∈ V) :
    ∃ U, V ⊆ U ∧ ops.lhs.vars ⊆ U ∧ ops.rhs.vars ⊆ U ∧ Checks known V ops.code U := by
  obtain ⟨right, s₁, left, s₂, hright, hleft, hops⟩ := h
  obtain ⟨wl, lhs, u, wr, rhs, hwl, hwr, rfl⟩ := Lowered.balance_ok hops
  have hcr := hr hright fun y hy => hV y (List.mem_append_right _ hy)
  have hcl : Checks known (V ∪ right.operand.vars) left.code
      (V ∪ right.operand.vars ∪ left.operand.vars) :=
    hl hleft fun y hy => Or.inl (hV y (List.mem_append_left _ hy))
  have hcwl := Value.widen_checks hwl
    (show left.operand.vars ⊆ V ∪ right.operand.vars ∪ left.operand.vars from fun y hy => Or.inr hy)
    known
  have hcwr := Value.widen_checks hwr
    (show right.operand.vars ⊆ V ∪ right.operand.vars ∪ left.operand.vars ∪ lhs.vars from
      fun y hy => Or.inl (Or.inl (Or.inr hy))) known
  refine ⟨_, ?_, ?_, ?_, ((hcr.append hcl).append hcwl).append hcwr⟩
  · exact fun y hy => Or.inl (Or.inl (Or.inl (Or.inl hy)))
  · exact fun y hy => Or.inl (Or.inr hy)
  · exact fun y hy => Or.inr hy

/-- The code of an expression whose variables are assigned is checked, and leaves its value in an
assigned variable. -/
theorem Expr.lower_checks {e : Expr} {x : Lowered} (h : e.lower s = .ok (x, t))
    (hV : ∀ y ∈ e.names, y ∈ V) : Checks known V x.code (V ∪ x.operand.vars) := by
  induction e generalizing s x t V with
  | lit v =>
    obtain ⟨rfl, rfl⟩ := Expr.lower_lit_ok h
    exact Set.union_subset subset_rfl (Set.empty_subset _)
  | var name =>
    obtain ⟨-, hcode, hop, rfl⟩ := Expr.lower_var_ok h
    rw [hcode, hop]
    have hname : name ∈ V := hV name (List.mem_singleton.2 rfl)
    exact Set.union_subset subset_rfl (Set.singleton_subset_iff.2 hname)
  | arith op l r ihl ihr =>
    obtain ⟨ops, u, hops, rfl, rfl⟩ := Expr.lower_arith_ok h
    obtain ⟨U, hVU, hlhs, hrhs, hcode⟩ := hops.checks ihl ihr hV
    exact (hcode.append_instr (Instr.readVars_arith hlhs hrhs) rfl).mono subset_rfl
      (Set.union_subset_union_left _ hVU)
  | cast ty e ih =>
    rcases Expr.lower_cast_ok h with ⟨-, hx⟩ | ⟨y, u, hy, -, rfl, rfl⟩
    · exact ih hx hV
    · have hconvert := (ih hy hV).append_instr
        (i := .convert ty (u.freshTemp ty).1 y.operand)
        (Instr.readVars_convert Set.subset_union_right) rfl
      exact hconvert.mono subset_rfl (Set.union_subset_union_left _ Set.subset_union_left)

theorem Comparison.lower_checks {op : Comparison} {l r : Expr} {x : Lowered}
    (h : op.lower l r s = .ok (x, t)) (hV : ∀ y ∈ l.names ++ r.names, y ∈ V) :
    Checks known V x.code (V ∪ x.operand.vars) := by
  obtain ⟨ops, u, hops, rfl, rfl⟩ := Comparison.lower_ok h
  obtain ⟨U, hVU, hlhs, hrhs, hcode⟩ := hops.checks Expr.lower_checks Expr.lower_checks hV
  exact (hcode.append_instr (Instr.readVars_compare hlhs hrhs) rfl).mono subset_rfl
    (Set.union_subset_union_left _ hVU)

end Straight

/-! ### Labels -/

/-- The labels from `n` up to `k` stand for `D`. -/
def Fixes (D : Set String) (n k : ℕ) (known : Label → Set String) : Prop :=
  ∀ l : Label, l.Between n k → known l = D

/-- There is a choice for the labels from `n` up to `m` with which the code is checked, however the
other labels are chosen, as long as these choices satisfy `P`. -/
structure Sure (P : (Label → Set String) → Prop) (n m : ℕ) (V : Set String) (code : List Item)
    (W : Set String) : Prop where
  le : n ≤ m
  holds : ∃ K : Label → Set String, ∀ known, P known → (∀ l, l.Between n m → known l = K l) →
    Checks known V code W

namespace Sure

variable {P : (Label → Set String) → Prop} {n k m : ℕ} {V U W V' W' D : Set String}
  {c d : List Item}

theorem of_checks (h : ∀ known, P known → Checks known V c W) (n : ℕ) : Sure P n n V c W :=
  ⟨le_rfl, fun _ => V, fun known hP _ => h known hP⟩

theorem of_true (h : Sure (fun _ => True) n m V c W) : Sure P n m V c W := by
  obtain ⟨hle, K, hK⟩ := h
  exact ⟨hle, K, fun known _ => hK known trivial⟩

theorem mark {l : Label} (hl : ∀ known, P known → known l = U) (n : ℕ) :
    Sure P n n U [.mark l] U := of_checks (fun known hP => Checks.mark (hl known hP)) n

theorem jump {l : Label} (hl : ∀ known, P known → known l = U) (n : ℕ) (W : Set String) :
    Sure P n n U [.instr (.jump l)] W :=
  of_checks (fun known hP => Checks.jump (hl known hP).subset W) n

theorem mono (h : Sure P n m V c W) (hV : V ⊆ V') (hW : W' ⊆ W) : Sure P n m V' c W' := by
  obtain ⟨hle, K, hK⟩ := h
  exact ⟨hle, K, fun known hP hknown => (hK known hP hknown).mono hV hW⟩

theorem append (hc : Sure P n k V c U) (hd : Sure P k m U d W) : Sure P n m V (c ++ d) W := by
  obtain ⟨hnk, K, hK⟩ := hc
  obtain ⟨hkm, K', hK'⟩ := hd
  -- labels below `k` belong to the first part
  refine ⟨hnk.trans hkm, fun l => if l.index < k then K l else K' l, fun known hP hknown => ?_⟩
  refine (hK known hP fun l hl => ?_).append (hK' known hP fun l hl => ?_)
  · exact (hknown l ⟨hl.1, hl.2.trans_le hkm⟩).trans (if_pos hl.2)
  · exact (hknown l ⟨hnk.trans hl.1, hl.2⟩).trans (if_neg (not_lt.2 hl.1))

theorem append_instr {i : Instr Label} {y : String} (hc : Sure P n m V c U)
    (hreads : i.readVars ⊆ U) (hdst : i.dst? = some y) :
    Sure P n m V (c ++ [.instr i]) (U ∪ (Operand.var y).vars) := by
  obtain ⟨hle, K, hK⟩ := hc
  exact ⟨hle, K, fun known hP hknown => (hK known hP hknown).append_instr hreads hdst⟩

/-- Labels that all stand for `D` are a choice too. -/
theorem of_fixes (hnk : n ≤ k) (h : Sure (Fixes D n k) k m V c W) :
    Sure (fun _ => True) n m V c W := by
  obtain ⟨hkm, K, hK⟩ := h
  refine ⟨hnk.trans hkm, fun l => if l.index < k then D else K l, fun known _ hknown => ?_⟩
  refine hK known (fun l hl => ?_) fun l hl => ?_
  · exact (hknown l ⟨hl.1, hl.2.trans_le hkm⟩).trans (if_pos hl.2)
  · exact (hknown l ⟨hnk.trans hl.1, hl.2⟩).trans (if_neg (not_lt.2 hl.1))

end Sure

section Conditions

variable {s t : NameSupply} {V U : Set String} {n : ℕ} {left right x : Lowered}

theorem Comparison.lower_sure {op : Comparison} {l r : Expr} (h : op.lower l r s = .ok (x, t))
    (hV : ∀ y ∈ l.names ++ r.names, y ∈ V) :
    Sure (fun _ => True) s.nextLabel t.nextLabel V x.code (V ∪ x.operand.vars) := by
  rw [(Comparison.lower_straight h).2]
  exact .of_checks (fun _ _ => Comparison.lower_checks h hV) _

theorem Lowered.disjoin_sure (h : left.disjoin right s = .ok (x, t))
    (hparts : Sure (fun _ => True) n s.nextLabel V (right.code ++ left.code) U) (hVU : V ⊆ U)
    (hl : left.operand.vars ⊆ U) (hr : right.operand.vars ⊆ U) :
    Sure (fun _ => True) n t.nextLabel V x.code (V ∪ x.operand.vars) := by
  obtain ⟨rfl, rfl⟩ := Lowered.disjoin_ok h
  have hsum := hparts.append_instr
    (i := .arith .add .int (s.freshTemp .int).1 left.operand right.operand)
    (Instr.readVars_arith hl hr) rfl
  have hflag := hsum.append_instr
    (i := .compare .ne .int ((s.freshTemp .int).2.freshTemp .int).1 (.var (s.freshTemp .int).1)
      .zero)
    (Instr.readVars_compare Set.subset_union_right (Set.empty_subset _)) rfl
  rw [Lowered.code_inVar, ← List.singleton_append, ← List.append_assoc]
  exact hflag.mono subset_rfl (Set.union_subset_union_left _ (hVU.trans Set.subset_union_left))

theorem Lowered.conjoin_sure (h : left.conjoin right s = .ok (x, t))
    (hparts : Sure (fun _ => True) n s.nextLabel V (right.code ++ left.code) U) (hVU : V ⊆ U)
    (hl : left.operand.vars ⊆ U) (hr : right.operand.vars ⊆ U) :
    Sure (fun _ => True) n t.nextLabel V x.code (V ∪ x.operand.vars) := by
  obtain ⟨rfl, rfl⟩ := Lowered.conjoin_ok h
  refine (hparts.append ⟨Nat.le_succ _, fun _ => U ∪ (Operand.var (s.freshTemp .int).1).vars,
    fun known _ hknown => ?_⟩).mono subset_rfl (Set.union_subset_union_left _ hVU)
  have hlabel := hknown ⟨s.nextLabel⟩ ⟨le_rfl, Nat.lt_succ_self _⟩
  have hnil : Checks known U [] U := subset_rfl
  -- the flag is written in front of the jump, so the jump may pass by the second comparison
  have hfirst := hnil.append_instr
    (i := .compare .ne .int (s.freshTemp .int).1 left.operand .zero)
    (Instr.readVars_compare hl (Set.empty_subset _)) rfl
  have hjump := Checks.jumpIfZero (o := .var (s.freshTemp .int).1) Set.subset_union_right
    hlabel.subset
  have hsecond := hjump.append_instr
    (i := .compare .ne .int (s.freshTemp .int).1 right.operand .zero)
    (Instr.readVars_compare (hr.trans Set.subset_union_left) (Set.empty_subset _)) rfl
  exact (hfirst.append hsecond).append ((Checks.mark hlabel).mono Set.subset_union_left subset_rfl)

theorem Relation.lower_sure {op : Relation} {l r : Expr} (h : op.lower l r s = .ok (x, t))
    (hV : ∀ y ∈ l.names ++ r.names, y ∈ V) :
    Sure (fun _ => True) s.nextLabel t.nextLabel V x.code (V ∪ x.operand.vars) := by
  have horEqual : ∀ {strict : Comparison}, strict.lowerOrEqual l r s = .ok (x, t) →
      Sure (fun _ => True) s.nextLabel t.nextLabel V x.code (V ∪ x.operand.vars) := by
    intro strict h
    simp only [Comparison.lowerOrEqual, Lower.bind_eq_ok_iff] at h
    obtain ⟨equal, s₁, hequal, less, s₂, hless, hx⟩ := h
    have hse := Comparison.lower_sure hequal hV
    have hsl := Comparison.lower_sure hless fun y hy =>
      show y ∈ V ∪ equal.operand.vars from Or.inl (hV y hy)
    exact Lowered.disjoin_sure hx (hse.append hsl) (fun y hy => Or.inl (Or.inl hy))
      (fun y hy => Or.inr hy) fun y hy => Or.inl (Or.inr hy)
  cases op
  case le => exact horEqual h
  case ge => exact horEqual h
  all_goals exact Comparison.lower_sure h hV

/-- The code of a condition whose variables are assigned is checked, and leaves its value in an
assigned variable. -/
theorem Cond.lower_sure {c : Cond} (h : c.lower s = .ok (x, t)) (hV : ∀ y ∈ c.names, y ∈ V) :
    Sure (fun _ => True) s.nextLabel t.nextLabel V x.code (V ∪ x.operand.vars) := by
  induction c generalizing s x t V with
  | or l r ihl ihr =>
    simp only [Cond.lower, Lower.bind_eq_ok_iff] at h
    obtain ⟨right, s₁, hr, left, s₂, hl, hx⟩ := h
    have hsr := ihr hr fun y hy => hV y (List.mem_append_right _ hy)
    have hsl := ihl hl fun y hy =>
      show y ∈ V ∪ right.operand.vars from Or.inl (hV y (List.mem_append_left _ hy))
    exact Lowered.disjoin_sure hx (hsr.append hsl) (fun y hy => Or.inl (Or.inl hy))
      (fun y hy => Or.inr hy) fun y hy => Or.inl (Or.inr hy)
  | and l r ihl ihr =>
    simp only [Cond.lower, Lower.bind_eq_ok_iff] at h
    obtain ⟨right, s₁, hr, left, s₂, hl, hx⟩ := h
    have hsr := ihr hr fun y hy => hV y (List.mem_append_right _ hy)
    have hsl := ihl hl fun y hy =>
      show y ∈ V ∪ right.operand.vars from Or.inl (hV y (List.mem_append_left _ hy))
    exact Lowered.conjoin_sure hx (hsr.append hsl) (fun y hy => Or.inl (Or.inl hy))
      (fun y hy => Or.inr hy) fun y hy => Or.inl (Or.inr hy)
  | not c ih =>
    simp only [Cond.lower, Lower.bind_eq_ok_iff] at h
    obtain ⟨y, u, hy, hx⟩ := h
    obtain ⟨rfl, rfl⟩ := Lowered.negate_ok hx
    have hflag := (ih hy hV).append_instr
      (i := .compare .eq .int (u.freshTemp .int).1 y.operand .zero)
      (Instr.readVars_compare Set.subset_union_right (Set.empty_subset _)) rfl
    exact hflag.mono subset_rfl (Set.union_subset_union_left _ Set.subset_union_left)
  | rel op l r => exact Relation.lower_sure h hV

end Conditions

/-! ### Statements -/

section Statements

variable {s t : NameSupply} {D : Set String}

theorem Expr.lower_sure {e : Expr} {x : Lowered} (h : e.lower s = .ok (x, t))
    (hD : ∀ y ∈ e.names, y ∈ D) :
    Sure (fun _ => True) s.nextLabel t.nextLabel D x.code (D ∪ x.operand.vars) := by
  rw [(Expr.lower_straight h).2]
  exact .of_checks (fun known _ => Expr.lower_checks h hD) _

theorem Value.readVars_of_store {v : Value} {target : String} {ty : Scalar} {i : Instr Label}
    (h : v.store target ty = .ok i) : i.readVars ⊆ v.operand.vars := by
  rw [Instr.readVars_subset_iff]
  obtain ⟨o, from_⟩ := v
  cases from_ <;> cases ty <;> simp only [Value.store, Except.ok.injEq, reduceCtorEq] at h
  all_goals
    subst h
    simp [Instr.reads]

/-- The code of a statement is checked if the variables of `D` are assigned before it, and they are
behind it. -/
def Stmt.SureWell (D : Set String) (st : Stmt) : Prop := ∀ ⦃s code t⦄, st.lower s = .ok (code, t) →
  (∀ y ∈ st.names, y ∈ D) → Sure (fun _ => True) s.nextLabel t.nextLabel D code D

theorem Stmt.lowerAll_sure_of {l : List Stmt} (hl : ∀ st ∈ l, st.SureWell D)
    {code : List Item} (h : lowerAll l s = .ok (code, t)) (hD : ∀ y ∈ namesAll l, y ∈ D) :
    Sure (fun _ => True) s.nextLabel t.nextLabel D code D := by
  induction l generalizing s code with
  | nil =>
    obtain ⟨rfl, rfl⟩ := lowerAll_nil_ok h
    exact .of_checks (fun _ _ => subset_rfl) _
  | cons st l ih =>
    obtain ⟨hst, hl⟩ := List.forall_mem_cons.1 hl
    obtain ⟨first, u, rest, hfirst, hrest, rfl⟩ := lowerAll_cons_ok h
    rw [namesAll_cons, List.forall_mem_append] at hD
    exact (hst hfirst hD.1).append (ih hl hrest hD.2)

namespace Case

theorem dispatch_checks {known : Label → Set String} {V : Set String} {selector : Operand}
    {flag : String} {first : ℕ} {cases : List Case} (hV : D ⊆ V) (hsel : selector.vars ⊆ V)
    (hlabels : Fixes D first (first + cases.length) known) :
    Checks known V (dispatch selector flag first cases) V := by
  induction cases generalizing first with
  | nil => exact subset_rfl
  | cons c cases ih =>
    have hfirst : known ⟨first⟩ = D := hlabels ⟨first⟩ ⟨le_rfl, by simp⟩
    have hothers : Fixes D (first + 1) (first + 1 + cases.length) known := by
      intro l hl
      obtain ⟨hlo, hhi⟩ := hl
      exact hlabels l ⟨by omega, by rw [List.length_cons]; omega⟩
    have hnil : Checks known V [] V := subset_rfl
    have hcompare := hnil.append_instr
      (i := .compare .ne .int flag selector (.lit (.int c.number)))
      (Instr.readVars_compare hsel (Set.empty_subset _)) rfl
    have hjump : Checks known (V ∪ (Operand.var flag).vars)
        [.instr (.jumpIfZero ⟨first⟩ (.var flag))] (V ∪ (Operand.var flag).vars) :=
      .jumpIfZero Set.subset_union_right ((hfirst.subset.trans hV).trans Set.subset_union_left)
    exact (hcompare.append hjump).append ((ih hothers).mono Set.subset_union_left subset_rfl)

theorem lowerDispatch_checks {known : Label → Set String} {V : Set String} {selector : Operand}
    {first : ℕ} {cases : List Case} {code : List Item}
    (h : lowerDispatch selector first cases s = .ok (code, t)) (hV : D ⊆ V)
    (hsel : selector.vars ⊆ V) (hlabels : Fixes D first (first + cases.length) known) :
    Checks known V code V := by
  cases cases with
  | nil =>
    obtain ⟨rfl, -⟩ := lowerDispatch_nil_ok h
    exact subset_rfl
  | cons c cases =>
    obtain ⟨-, rfl⟩ := lowerDispatch_cons_ok h
    exact dispatch_checks hV hsel hlabels

theorem lowerAll_sure_of {cases : List Case} (hcases : ∀ c ∈ cases, ∀ st ∈ c.body, st.SureWell D)
    {P : (Label → Set String) → Prop} {endLabel : Label} {first : ℕ} {code : List Item}
    (h : lowerAll endLabel first cases s = .ok (code, t)) (hD : ∀ y ∈ namesAll cases, y ∈ D)
    (hend : ∀ known, P known → known endLabel = D)
    (hlabels : ∀ known, P known → Fixes D first (first + cases.length) known) :
    Sure P s.nextLabel t.nextLabel Set.univ code Set.univ := by
  induction cases generalizing s first code with
  | nil =>
    obtain ⟨rfl, rfl⟩ := lowerAll_nil_ok h
    exact .of_checks (fun _ _ => subset_rfl) _
  | cons c cases ih =>
    obtain ⟨number, body⟩ := c
    obtain ⟨hbody, hcases⟩ := List.forall_mem_cons.1 hcases
    obtain ⟨bodyCode, u, rest, hb, hrest, rfl⟩ := lowerAll_cons_ok h
    rw [namesAll_cons, List.forall_mem_append] at hD
    rw [List.length_cons] at hlabels
    have hstart : Sure P s.nextLabel s.nextLabel Set.univ [.mark ⟨first⟩] D :=
      (Sure.mark (fun known hP => hlabels known hP ⟨first⟩ ⟨le_rfl, by simp⟩) _).mono
        (Set.subset_univ _) subset_rfl
    have hbodyCode := (Stmt.lowerAll_sure_of hbody hb hD.1).of_true (P := P)
    have hrestCode := ih hcases hrest hD.2 fun known hP l hl =>
      hlabels known hP l (by obtain ⟨hlo, hhi⟩ := hl; constructor <;> omega)
    exact ((hstart.append hbodyCode).append (.jump hend _ _)).append hrestCode

end Case

theorem Cond.lower_sure_jump {c : Cond} {test : Lowered} (h : c.lower s = .ok (test, t))
    (hD : ∀ y ∈ c.names, y ∈ D) {P : (Label → Set String) → Prop} {l : Label}
    (hl : ∀ known, P known → known l = D) :
    Sure P s.nextLabel t.nextLabel D (test.code ++ [.instr (.jumpIfZero l test.operand)]) D := by
  refine (Cond.lower_sure h hD).of_true.append (.of_checks (fun known hP => ?_) _)
  have hjump : Checks known (D ∪ test.operand.vars) [.instr (.jumpIfZero l test.operand)]
      (D ∪ test.operand.vars) :=
    .jumpIfZero Set.subset_union_right ((hl known hP).subset.trans Set.subset_union_left)
  exact hjump.mono subset_rfl Set.subset_union_left

namespace Stmt

theorem sureWell_ite {c : Cond} {yes no : Stmt} (hyes : yes.SureWell D) (hno : no.SureWell D) :
    (ite c yes no).SureWell D := by
  intro s code t h hD
  obtain ⟨test, s₁, yesCode, s₂, noCode, hc, hy, hn, rfl⟩ := lower_ite_ok h
  simp only [names_ite, List.forall_mem_append] at hD
  obtain ⟨hDc, hDy, hDn⟩ := hD
  -- the labels of the branch itself stand for `D`
  refine .of_fixes (D := D) (Nat.le_add_right s.nextLabel 3) ?_
  have hlabel : ∀ j < 3, ∀ known, Fixes D s.nextLabel (s.nextLabel + 3) known →
      known ⟨s.nextLabel + j⟩ = D :=
    fun j hj known hfix => hfix _ ⟨by simp, by simpa using hj⟩
  have htest := Cond.lower_sure_jump hc hDc (hlabel 1 (by omega))
  have hthen := (htest.append (.mark (hlabel 0 (by omega)) _)).append (hyes hy hDy).of_true
  have helse := ((hthen.append (.jump (hlabel 2 (by omega)) _ D)).append
    (.mark (hlabel 1 (by omega)) _)).append (hno hn hDn).of_true
  have hend := helse.append (.mark (hlabel 2 (by omega)) _)
  simpa using hend

theorem sureWell_loop {c : Cond} {body : Stmt} (hbody : body.SureWell D) :
    (loop c body).SureWell D := by
  intro s code t h hD
  obtain ⟨test, s₁, bodyCode, hc, hb, rfl⟩ := lower_loop_ok h
  simp only [names_loop, List.forall_mem_append] at hD
  obtain ⟨hDc, hDb⟩ := hD
  refine .of_fixes (D := D) (Nat.le_add_right s.nextLabel 2) ?_
  have hlabel : ∀ j < 2, ∀ known, Fixes D s.nextLabel (s.nextLabel + 2) known →
      known ⟨s.nextLabel + j⟩ = D :=
    fun j hj known hfix => hfix _ ⟨by simp, by simpa using hj⟩
  have hstart := Sure.mark (hlabel 0 (by omega)) (s.nextLabel + 2)
  have htest := hstart.append (Cond.lower_sure_jump hc hDc (hlabel 1 (by omega)))
  have hbodyCode := htest.append (hbody hb hDb).of_true
  have hback := (hbodyCode.append (.jump (hlabel 0 (by omega)) _ D)).append
    (.mark (hlabel 1 (by omega)) _)
  simpa using hback

theorem sureWell_switch {e : Expr} {cases : List Case} {otherwise : List Stmt}
    (hcases : ∀ c ∈ cases, ∀ st ∈ c.body, st.SureWell D)
    (hother : ∀ st ∈ otherwise, st.SureWell D) : (switch e cases otherwise).SureWell D := by
  intro s code t h hD
  obtain ⟨x, s₁, head, s₂, otherCode, s₃, caseCode, hx, -, -, hhead, ho, hca, rfl⟩ :=
    lower_switch_ok h
  simp only [names_switch, List.forall_mem_append] at hD
  obtain ⟨hDe, hDo, hDc⟩ := hD
  have hnx := (Expr.lower_straight hx).2
  obtain ⟨-, -, hnhead⟩ := Case.lowerDispatch_jumps hhead
  simp only [NameSupply.nextLabel_freshLabels, NameSupply.nextLabel_freshLabel] at hnhead
  rw [← hnx]
  -- one label for the end and one for each case
  refine .of_fixes (D := D) (k := s₂.nextLabel) (by omega) ?_
  have hend : ∀ known, Fixes D s₁.nextLabel s₂.nextLabel known → known ⟨s₁.nextLabel⟩ = D :=
    fun known hfix => hfix _ ⟨le_rfl, by simp only; omega⟩
  have hlabels : ∀ known, Fixes D s₁.nextLabel s₂.nextLabel known →
      Fixes D (s₁.nextLabel + 1) (s₁.nextLabel + 1 + cases.length) known :=
    fun known hfix l hl => hfix l (by obtain ⟨hlo, hhi⟩ := hl; constructor <;> omega)
  have hdispatch : Sure (Fixes D s₁.nextLabel s₂.nextLabel) s₂.nextLabel s₂.nextLabel D
      (x.code ++ head) D := by
    refine .of_checks (fun known hfix => (Expr.lower_checks hx hDe).append ?_) _
    exact (Case.lowerDispatch_checks hhead Set.subset_union_left Set.subset_union_right
      (hlabels known hfix)).mono subset_rfl Set.subset_union_left
  have hotherCode := hdispatch.append (lowerAll_sure_of hother ho hDo).of_true
  have hcaseCode := (hotherCode.append (.jump hend _ _)).append
    (Case.lowerAll_sure_of hcases hca hDc hend hlabels)
  exact (hcaseCode.mono subset_rfl (Set.subset_univ D)).append (.mark hend _)

theorem sureWell (D : Set String) (st : Stmt) : st.SureWell D := by
  induction st using Stmt.induction with
  | assign target e =>
    intro s code t h hD
    obtain ⟨x, ty, i, hx, -, hi, rfl⟩ := lower_assign_ok h
    simp only [names_assign, List.forall_mem_cons] at hD
    have hreads : i.readVars ⊆ D ∪ x.operand.vars :=
      (Value.readVars_of_store hi).trans Set.subset_union_right
    exact ((Expr.lower_sure hx hD.2).append_instr hreads (Value.dst?_of_store hi)).mono subset_rfl
      fun y hy => Or.inl (Or.inl hy)
  | input target =>
    intro s code t h hD
    obtain ⟨ty, -, rfl, rfl⟩ := lower_input_ok h
    have hread : (.read ty target : Instr Label).readVars ⊆ D :=
      Instr.readVars_subset_iff.2 (by simp [Instr.reads])
    refine .of_checks (fun known _ => ?_) _
    exact (Checks.append_instr (c := []) (U := D) subset_rfl hread rfl).mono subset_rfl
      Set.subset_union_left
  | output e =>
    intro s code t h hD
    obtain ⟨x, hx, rfl⟩ := lower_output_ok h
    rw [names_output] at hD
    have hprint : (.print x.ty x.operand : Instr Label).readVars ⊆ D ∪ x.operand.vars :=
      Instr.readVars_subset_iff.2 (by simp [Instr.reads])
    refine (Expr.lower_sure hx hD).append (.of_checks (fun known _ => ?_) _)
    exact ⟨hprint, fun l hl => absurd hl (by simp [Instr.target?]),
      fun y hy _ => Or.inl (Or.inl hy)⟩
  | ite c yes no hyes hno => exact sureWell_ite hyes hno
  | loop c body hbody => exact sureWell_loop hbody
  | switch e cases otherwise hcases hother => exact sureWell_switch hcases hother
  | leave => exact fun s code t h => absurd h not_lower_leave_ok
  | block body hbody =>
    intro s code t h hD
    rw [names_block] at hD
    exact lowerAll_sure_of hbody h hD

end Stmt

end Statements

/-! ### Programs -/

/-- **Assignment before use.** On a path through the executable of a program that mentions declared
variables only, a variable that is read without being declared is written on a line that was passed
before. Declared variables are written by the instructions of the statements that store a value in
them, one for each such statement and in the same order, and by no others. -/
theorem temporaries_assigned_before_use {p : Program} {o : Options} {x : Executable}
    (hclosed : p.Closed) (hbuild : p.build o = .ok x) :
    (∀ passed k i, Path x.instrs passed k → x.instrs[k]? = some i →
      ∀ y ∈ i.readVars, p.types y = none →
        ∃ l ∈ passed, ∃ j, x.instrs[l]? = some j ∧ j.dst? = some y) ∧
    List.Forall₂ Stmt.StoredBy (Stmt.stores (Stmt.partsAll p.body))
      (x.instrs.filter (Instr.writesTo p.types)) := by
  obtain ⟨f, hf, hlink⟩ := Program.build_ok hbuild
  obtain ⟨t, ht⟩ := Program.lower_ok hf
  obtain ⟨scope, hscope, hbody⟩ := Program.lowerItems_ok ht
  have htypes : scope.find? = p.types := funext (Program.find?_of_declareAll hscope)
  constructor
  · intro passed k i hpath hi y hy hundeclared
    obtain ⟨-, K, hK⟩ := Stmt.lowerAll_sure_of (D := {y | p.types y ≠ none})
      (fun st _ => st.sureWell _) hbody hclosed
    have hchecks := hK K trivial fun l _ => rfl
    exact (Fragment.readVars_subset_of_path hlink hchecks hpath hi hy).resolve_left
      fun hdeclared => hdeclared hundeclared
  · rw [← htypes]
    refine Fragment.storedBy_of_link hlink
      (Stmt.lowerAll_stores_of (fun st _ => st.storesWell scope) hbody le_rfl ?_)
    rw [htypes]
    exact hclosed

/-- A loop whose condition is a conjunction. -/
def Program.countdown : Program where
  declarations := [⟨["n"], .int⟩]
  body := [.loop
    (.and (.rel .gt (.var "n") (.lit (.int 0))) (.rel .lt (.var "n") (.lit (.int 9))))
    (.assign "n" (.arith .sub (.var "n") (.lit (.int 1))))]

/-- The path leaves out the second comparison of a conjunction. -/
theorem temporaries_assigned_before_use_conjunction :
    ∃ x, Program.countdown.build = .ok x ∧ Path x.instrs [0, 1, 2, 3] 5 ∧
      x.instrs[5]? = some (.jumpIfZero 9 (.var "_t2")) ∧
      (∃ l ∈ [0, 1, 2, 3], ∃ j, x.instrs[l]? = some j ∧ j.dst? = some "_t2") ∧
      (x.instrs.filter (Instr.writesTo Program.countdown.types)).length = 1 := by
  obtain ⟨x, hx⟩ := exists_ok_of_isOk (r := Program.countdown.build) (by decide +kernel)
  have hlines : x.instrs = [
      .compare .lt .int "_t0" (.var "n") (.lit (.int 9)),
      .compare .gt .int "_t1" (.var "n") (.lit (.int 0)),
      .compare .ne .int "_t2" (.var "_t1") (.lit (.int 0)),
      .jumpIfZero 5 (.var "_t2"),
      .compare .ne .int "_t2" (.var "_t0") (.lit (.int 0)),
      .jumpIfZero 9 (.var "_t2"),
      .arith .sub .int "_t3" (.var "n") (.lit (.int 1)),
      .copy .int "n" (.var "_t3"),
      .jump 0,
      .halt] := by
    have hbuild : Program.countdown.build = .ok ⟨_, _⟩ := rfl
    obtain rfl := Except.ok.inj (hbuild.symm.trans hx)
    rfl
  obtain ⟨hpaths, hstores⟩ := temporaries_assigned_before_use
    (by unfold Program.Closed; decide) hx
  have hpath : Path x.instrs [0, 1, 2, 3] 5 := by
    rw [hlines]
    exact .step (.step (.step (.step .start rfl (by decide)) rfl (by decide)) rfl (by decide)) rfl
      (by decide)
  have hline : x.instrs[5]? = some (.jumpIfZero 9 (.var "_t2")) := by rw [hlines]; rfl
  refine ⟨x, hx, hpath, hline, ?_, hstores.length_eq.symm⟩
  exact hpaths _ 5 _ hpath hline "_t2" ⟨.int, List.mem_singleton.2 rfl⟩ rfl

end QuadCode
