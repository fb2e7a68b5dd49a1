import QuadCode.Proofs.Emission
import QuadCode.Proofs.Linking
import Mathlib.Data.List.Infix

/-!
# Checking without code

A checker that looks at a program and makes no code. It finds the first fault of
a program, in the order in which the parts of the program are looked at.

* `Expr.check`, `Cond.check`, `Stmt.check`, `Program.check` are the checker. It
  knows declared variables only, and looks at an operand once;
* `Lower.Reports` says that a lowering step and a check end alike: both with one
  fault, or both without any;
* lowering adds temporaries to the scope, so the two agree on the names that no
  temporary takes (`NameSupply.Agrees`).
-/

namespace QuadCode

/-! ### The checker -/

/-- The first thing found by a search that sees each entry of a list with the entries before it. -/
def scan {α β : Type} (found : List α → α → Option β) (l : List α) : Option β :=
  (l.inits.zip l).findSome? fun p => found p.1 p.2

/-- Fail if there is a fault. -/
def failIf : Option Fault → Except Fault Unit
  | some e => .error e
  | none => .ok ()

/-- The type of a name that has to be declared. -/
def declaredType (types : String → Option Scalar) (name : String) : Except Fault Scalar :=
  match types name with
  | some ty => .ok ty
  | none => .error (.undeclared name)

/-- The type of an expression. The right operand is looked at first. -/
def Expr.check (types : String → Option Scalar) : Expr → Except Fault Scalar
  | lit v => return v.ty
  | var name => declaredType types name
  | arith _ l r => do
    let right ← r.check types
    let left ← l.check types
    return left.join right
  | cast ty e => do
    let _ ← e.check types
    return ty

/-- Check a condition. The right operand is looked at first. -/
def Cond.check (types : String → Option Scalar) : Cond → Except Fault Unit
  | or l r => do
    r.check types
    l.check types
  | and l r => do
    r.check types
    l.check types
  | not c => c.check types
  | rel _ l r => do
    let _ ← r.check types
    let _ ← l.check types
    return ()

/-- The fault of an assignment: a float does not fit into an integer variable. -/
def narrowing? (target : String) : Scalar → Scalar → Option Fault
  | .float, .int => some (.narrowing target)
  | _, _ => none

/-- The fault of a selector that is not an integer. -/
def selector? : Scalar → Option Fault
  | .int => none
  | .float => some (.selector .float)

/-- The fault of a number that an earlier case has. -/
def duplicate? (numbers : List Int64) : Option Fault :=
  scan (fun before n => if n ∈ before then some (.duplicateCase n) else none) numbers

/-- The fault of a name that was declared before, with the type that it was declared with. -/
def redeclaration? (vars : List (String × Scalar)) : Option Fault :=
  scan (fun before v => (before.lookup v.1).map (.redeclared v.1)) vars

mutual

/-- Check a statement. The numbers of all cases of a switch are looked at before any of its bodies,
and the body that stands otherwise before the bodies of the cases. -/
def Stmt.check (types : String → Option Scalar) : Stmt → Except Fault Unit
  | .assign target e => do
    let source ← e.check types
    let ty ← declaredType types target
    failIf (narrowing? target source ty)
  | .input target => do
    let _ ← declaredType types target
    return ()
  | .output e => do
    let _ ← e.check types
    return ()
  | .ite c yes no => do
    c.check types
    yes.check types
    no.check types
  | .loop c body => do
    c.check types
    body.check types
  | .switch e cases otherwise => do
    let ty ← e.check types
    failIf (selector? ty)
    failIf (duplicate? (cases.map Case.number))
    Stmt.checkAll types otherwise
    Case.checkAll types cases
  | .leave => .error (.unsupported "break")
  | .block body => Stmt.checkAll types body

/-- Check statements one after the other. -/
def Stmt.checkAll (types : String → Option Scalar) : List Stmt → Except Fault Unit
  | [] => return ()
  | s :: l => do
    s.check types
    Stmt.checkAll types l

/-- Check the bodies of cases one after the other. -/
def Case.checkAll (types : String → Option Scalar) : List Case → Except Fault Unit
  | [] => return ()
  | ⟨_, body⟩ :: cases => do
    Stmt.checkAll types body
    Case.checkAll types cases

end

/-- Check the declarations of a program, then its body. -/
def Program.check (p : Program) : Except Fault Unit := do
  failIf (redeclaration? p.declared)
  Stmt.checkAll p.types p.body

/-! ### Searches -/

section Scan

variable {α β : Type}

@[simp] theorem scan_nil (found : List α → α → Option β) : scan found [] = none := rfl

theorem scan_cons (found : List α → α → Option β) (a : α) (l : List α) :
    scan found (a :: l) = (found [] a).or (scan (fun before => found (a :: before)) l) := by
  have hzip : (a :: l).inits.zip (a :: l) =
      ([], a) :: (l.inits.zip l).map (Prod.map (a :: ·) id) := by
    rw [List.inits, List.zip_cons_cons, ← List.zip_map, List.map_id]
  rw [scan, hzip, List.findSome?_cons, List.findSome?_map]
  cases found [] a <;> rfl

theorem exists_of_scan {found : List α → α → Option β} {l : List α} {b : β}
    (h : scan found l = some b) : ∃ before a after, l = before ++ a :: after ∧
      found before a = some b := by
  induction l generalizing found with
  | nil => cases h
  | cons a l ih =>
    rw [scan_cons, Option.or_eq_some_iff] at h
    rcases h with h | ⟨-, h⟩
    · exact ⟨[], a, l, rfl, h⟩
    · obtain ⟨before, c, after, rfl, hc⟩ := ih h
      exact ⟨a :: before, c, after, rfl, hc⟩

end Scan

theorem firstRepeatAfter_eq_scan {α : Type} [DecidableEq α] (seen l : List α) :
    firstRepeatAfter seen l =
      scan (fun before a => if a ∈ seen ∨ a ∈ before then some a else none) l := by
  induction l generalizing seen with
  | nil => rfl
  | cons a l ih =>
    have hswap : ∀ (before : List α) (b : α),
        (b ∈ a :: seen ∨ b ∈ before) ↔ (b ∈ seen ∨ b ∈ a :: before) := by
      intro before b
      simp only [List.mem_cons]
      tauto
    rw [firstRepeatAfter, scan_cons]
    by_cases ha : a ∈ seen
    · simp [ha]
    · simp only [ha, if_false, ih, hswap, List.not_mem_nil, or_false, Option.none_or]

theorem Case.checkDistinct_eq (cases : List Case) :
    Case.checkDistinct cases = failIf (duplicate? (cases.map Case.number)) := by
  have hmap : ∀ (found : List Int64 → Int64 → Option Int64) (l : List Int64),
      (scan found l).map Fault.duplicateCase =
        scan (fun before n => (found before n).map Fault.duplicateCase) l := by
    intro found l
    simp only [scan, List.map_findSome?]
    rfl
  have hdup : duplicate? (cases.map Case.number) =
      (firstRepeat? (cases.map Case.number)).map Fault.duplicateCase := by
    rw [firstRepeat?, firstRepeatAfter_eq_scan, hmap, duplicate?]
    congr 1
    funext before n
    by_cases hn : n ∈ before <;> simp [hn]
  rw [hdup, Case.checkDistinct]
  cases firstRepeat? (cases.map Case.number) <;> rfl

/-- Declarations fail at the first name that is in scope or was declared before. -/
theorem Scope.declareAll_eq (s : Scope) (vars : List (String × Scalar)) :
    (s.declareAll vars).map (fun _ => ()) =
      failIf (scan (fun before v => ((s.find? v.1).or (before.lookup v.1)).map (.redeclared v.1))
        vars) := by
  induction vars generalizing s with
  | nil => rfl
  | cons v vars ih =>
    obtain ⟨name, ty⟩ := v
    rw [declareAll, List.foldlM_cons, scan_cons]
    cases hname : s.find? name with
    | some existing => simp [declare, hname, bind, Except.bind, Except.map, failIf]
    | none =>
      have hfind : ∀ (before : List (String × Scalar)) (x : String),
          ((s.insert name ty).find? x).or (before.lookup x) =
            (s.find? x).or (((name, ty) :: before).lookup x) := by
        intro before x
        rw [find?_insert, List.lookup_cons]
        by_cases hx : x = name
        · simp [hx, hname]
        · simp [hx, beq_eq_false_iff_ne.mpr hx]
      have hstep := ih (s.insert name ty)
      simp only [hfind] at hstep
      rw [declare_eq_ok_iff.2 ⟨hname, rfl⟩]
      exact hstep

/-! ### Lowering reports what the checker reports -/

namespace Lower

variable {α β γ δ : Type} {x : Lower α} {s : NameSupply} {r : Except Fault β} {Q : α → β → Prop}

/-- The step and the check fail with one fault, or both succeed with related results. -/
def Reports (x : Lower α) (s : NameSupply) (r : Except Fault β) (Q : α → β → Prop) : Prop :=
  match x s, r with
  | .ok (a, _), .ok b => Q a b
  | .error e, .error e' => e = e'
  | _, _ => False

theorem reports_of_ok {a : α} {t : NameSupply} {b : β} (h : x s = .ok (a, t)) (hQ : Q a b) :
    x.Reports s (.ok b) Q := by
  simp only [Reports, h]
  exact hQ

theorem reports_of_error {e : Fault} (h : x s = .error e) : x.Reports s (.error e) Q := by
  simp only [Reports, h]

/-- Steps and checks in sequence. -/
theorem Reports.bind {f : α → Lower γ} {g : β → Except Fault δ} {P : γ → δ → Prop}
    (hx : x.Reports s r Q)
    (hf : ∀ ⦃a t b⦄, x s = .ok (a, t) → Q a b → (f a).Reports t (g b) P) :
    (x >>= f).Reports s (r >>= g) P := by
  revert hx hf
  unfold Reports
  simp only [Bind.bind, StateT.bind, Except.bind]
  rcases x s with e | ⟨a, t⟩ <;> rcases r with e' | b
  · exact fun hx _ => hx
  · exact fun hx _ => hx.elim
  · exact fun hx _ => hx.elim
  · exact fun hx hf => hf rfl hx

/-- A step before the check that cannot fail. -/
theorem Reports.after {a : α} {t : NameSupply} {f : α → Lower γ} {P : γ → β → Prop}
    (hx : x s = .ok (a, t)) (hf : (f a).Reports t r P) : (x >>= f).Reports s r P := by
  unfold Reports at *
  simpa only [Bind.bind, StateT.bind, Except.bind, hx] using hf

/-- A step after the check that cannot fail once the check has succeeded. -/
theorem Reports.before {f : α → Lower γ} {P : γ → β → Prop} (hx : x.Reports s r Q)
    (hf : ∀ ⦃a t b⦄, x s = .ok (a, t) → r = .ok b → Q a b →
      ∃ c u, f a t = .ok (c, u) ∧ P c b) : (x >>= f).Reports s r P := by
  revert hx hf
  unfold Reports
  simp only [Bind.bind, StateT.bind, Except.bind]
  rcases x s with e | ⟨a, t⟩ <;> rcases r with e' | b
  · exact fun hx _ => hx
  · exact fun hx _ => hx.elim
  · exact fun hx _ => hx.elim
  · intro hx hf
    obtain ⟨c, u, hc, hP⟩ := hf rfl rfl hx
    simpa only [hc] using hP

theorem Reports.exists_ok {b : β} (h : x.Reports s (.ok b) Q) :
    ∃ a t, x s = .ok (a, t) ∧ Q a b := by
  unfold Reports at h
  rcases hx : x s with e | ⟨a, t⟩
  · rw [hx] at h
    exact h.elim
  · rw [hx] at h
    exact ⟨a, t, rfl, h⟩

theorem Reports.map_eq {r : Except Fault Unit} {Q : α → Unit → Prop} (h : x.Reports s r Q) :
    (x s).map (fun _ => ()) = r := by
  unfold Reports at h
  rcases hx : x s with e | ⟨a, t⟩ <;> rcases r with e' | b <;> rw [hx] at h
  · rw [show e = e' from h]
    rfl
  · exact h.elim
  · exact h.elim
  · rfl

end Lower

/-- No temporary takes the name: it is declared already, or it does not look like one. -/
def Settled (types : String → Option Scalar) (x : String) : Prop :=
  types x = none → ∀ n, x ≠ tempName n

/-- The scope of the supply has the declared types of all names that no temporary takes. -/
def NameSupply.Agrees (s : NameSupply) (types : String → Option Scalar) : Prop :=
  ∀ ⦃x⦄, Settled types x → s.scope.find? x = types x

theorem NameSupply.Agrees.mono {s t : NameSupply} {types : String → Option Scalar}
    (h : s.Agrees types) (hst : s ≤ t) : t.Agrees types := by
  intro x hx
  cases hty : types x with
  | some ty => exact hst.scope ((h hx).trans hty)
  | none =>
    -- a name that has come into scope is a temporary
    by_contra hne
    obtain ⟨n, hn⟩ := hst.temp ((h hx).trans hty) hne
    exact hx hty n hn

open Lower

variable {types : String → Option Scalar} {s : NameSupply}

theorem Lower.typeOf_reports {name : String} (hs : s.Agrees types) (hname : Settled types name) :
    (typeOf name).Reports s (declaredType types name) fun ty ty' => ty = ty' := by
  have hfind := hs hname
  unfold declaredType
  cases hty : types name with
  | some ty => exact reports_of_ok (typeOf_eq_ok_iff.2 ⟨hfind.trans hty, rfl⟩) rfl
  | none =>
    refine reports_of_error ?_
    simp [typeOf, ofExcept, Scope.typeOf, hfind.trans hty, Except.map]

theorem Value.exists_widen (v : Value) (ty : Scalar) (s : NameSupply) :
    ∃ c t, v.widen ty s = .ok (c, t) := by
  obtain ⟨o, from_⟩ := v
  cases from_ <;> cases ty <;> exact ⟨_, _, rfl⟩

theorem Lowered.exists_balance (left right : Lowered) (s : NameSupply) :
    ∃ ops t, left.balance right s = .ok (ops, t) := by
  obtain ⟨c, t, hc⟩ := left.value.exists_widen (left.ty.join right.ty) s
  obtain ⟨d, u, hd⟩ := right.value.exists_widen (left.ty.join right.ty) t
  exact ⟨_, u, bind_eq_ok_iff.2 ⟨c, t, hc, bind_eq_ok_iff.2 ⟨d, u, hd, rfl⟩⟩⟩

/-- An expression has the type that the checker finds. -/
theorem Expr.lower_reports (e : Expr) (hs : s.Agrees types) (he : ∀ x ∈ e.names, Settled types x) :
    e.lower.Reports s (e.check types) fun x ty => x.ty = ty := by
  induction e generalizing s with
  | lit v => exact reports_of_ok rfl rfl
  | var name =>
    refine (typeOf_reports hs (he name (by simp [Expr.names]))).before fun ty t ty' _ _ h => ?_
    exact ⟨_, _, rfl, h⟩
  | arith op l r ihl ihr =>
    obtain ⟨hel, her⟩ := List.forall_mem_append.1 he
    refine (ihr hs her).bind fun right s₁ b hright hb => ?_
    refine (ihl (hs.mono (r.adds_lower hright)) hel).bind fun left s₂ a hleft ha => ?_
    obtain ⟨ops, u, hops⟩ := left.exists_balance right s₂
    refine Reports.after hops (Reports.after rfl (reports_of_ok rfl ?_))
    obtain ⟨-, -, -, -, -, -, -, rfl⟩ := Lowered.balance_ok hops
    simp only [Lowered.inVar, Lowered.ty, ← ha, ← hb]
  | cast ty e ih =>
    refine (ih hs he).bind fun x t ty' hx hty => ?_
    by_cases hxt : x.ty = ty
    · rw [if_pos hxt]
      exact reports_of_ok rfl hxt
    · rw [if_neg hxt]
      exact Reports.after rfl (reports_of_ok rfl rfl)

theorem Comparison.lower_reports (op : Comparison) (l r : Expr) (hs : s.Agrees types)
    (hl : ∀ x ∈ l.names, Settled types x) (hr : ∀ x ∈ r.names, Settled types x) (k : Relation) :
    (op.lower l r).Reports s ((Cond.rel k l r).check types) fun _ _ => True := by
  refine (r.lower_reports hs hr).bind fun right s₁ _ hright _ => ?_
  refine (l.lower_reports (hs.mono (r.adds_lower hright)) hl).bind fun left s₂ _ _ _ => ?_
  obtain ⟨ops, u, hops⟩ := left.exists_balance right s₂
  exact Reports.after hops (reports_of_ok rfl trivial)

/-- Both comparisons look at the same operands, so the second cannot fail. -/
theorem Comparison.lowerOrEqual_reports (strict : Comparison) (l r : Expr) (hs : s.Agrees types)
    (hl : ∀ x ∈ l.names, Settled types x) (hr : ∀ x ∈ r.names, Settled types x) (k : Relation) :
    (strict.lowerOrEqual l r).Reports s ((Cond.rel k l r).check types) fun _ _ => True := by
  refine (Comparison.lower_reports .eq l r hs hl hr k).before fun equal t _ hequal hok _ => ?_
  have hs' := hs.mono (Comparison.adds_lower _ l r hequal)
  have hstrict := strict.lower_reports l r hs' hl hr k
  rw [hok] at hstrict
  obtain ⟨less, u, hless, -⟩ := hstrict.exists_ok
  exact ⟨_, _, bind_eq_ok_iff.2 ⟨less, u, hless, rfl⟩, trivial⟩

theorem Cond.lower_reports (c : Cond) (hs : s.Agrees types) (hc : ∀ x ∈ c.names, Settled types x) :
    c.lower.Reports s (c.check types) fun _ _ => True := by
  induction c generalizing s with
  | or l r ihl ihr =>
    obtain ⟨hl, hr⟩ := List.forall_mem_append.1 hc
    refine (ihr hs hr).bind fun right s₁ _ hright _ => ?_
    exact (ihl (hs.mono (r.adds_lower hright)) hl).before fun left _ _ _ _ _ => ⟨_, _, rfl, trivial⟩
  | and l r ihl ihr =>
    obtain ⟨hl, hr⟩ := List.forall_mem_append.1 hc
    refine (ihr hs hr).bind fun right s₁ _ hright _ => ?_
    exact (ihl (hs.mono (r.adds_lower hright)) hl).before fun left _ _ _ _ _ => ⟨_, _, rfl, trivial⟩
  | not c ih => exact (ih hs hc).before fun x _ _ _ _ _ => ⟨_, _, rfl, trivial⟩
  | rel op l r =>
    obtain ⟨hl, hr⟩ := List.forall_mem_append.1 hc
    cases op
    case le => exact Comparison.lowerOrEqual_reports _ l r hs hl hr _
    case ge => exact Comparison.lowerOrEqual_reports _ l r hs hl hr _
    all_goals exact Comparison.lower_reports _ l r hs hl hr _

/-! ### Statements -/

/-- Lowering the statement reports what checking it reports. -/
def Stmt.ReportsWell (types : String → Option Scalar) (st : Stmt) : Prop :=
  ∀ ⦃s⦄, s.Agrees types → (∀ x ∈ st.names, Settled types x) →
    st.lower.Reports s (st.check types) fun _ _ => True

theorem Lower.ofExcept_reports {e : Except Fault α} {r : Except Fault Unit}
    (h : e.map (fun _ => ()) = r) : (ofExcept e).Reports s r fun _ _ => True := by
  subst h
  cases e with
  | error e => exact reports_of_error rfl
  | ok a => exact reports_of_ok rfl trivial

theorem Stmt.lowerAll_reports_of {l : List Stmt} (hl : ∀ st ∈ l, st.ReportsWell types)
    (hs : s.Agrees types) (hn : ∀ x ∈ namesAll l, Settled types x) :
    (lowerAll l).Reports s (checkAll types l) fun _ _ => True := by
  induction l generalizing s with
  | nil => exact reports_of_ok rfl trivial
  | cons st l ih =>
    obtain ⟨hst, hl⟩ := List.forall_mem_cons.1 hl
    rw [namesAll_cons] at hn
    obtain ⟨hnst, hnl⟩ := List.forall_mem_append.1 hn
    refine (hst hs hnst).bind fun code t _ hcode _ => ?_
    exact (ih hl (hs.mono (st.adds_lower hcode)) hnl).before fun _ _ _ _ _ _ => ⟨_, _, rfl, trivial⟩

theorem Case.lowerAll_reports_of {cases : List Case}
    (hcases : ∀ c ∈ cases, ∀ st ∈ c.body, st.ReportsWell types) (hs : s.Agrees types)
    (hn : ∀ x ∈ namesAll cases, Settled types x) (endLabel : Label) (first : ℕ) :
    (lowerAll endLabel first cases).Reports s (checkAll types cases) fun _ _ => True := by
  induction cases generalizing s first with
  | nil => exact reports_of_ok rfl trivial
  | cons c cases ih =>
    obtain ⟨number, body⟩ := c
    obtain ⟨hbody, hcases⟩ := List.forall_mem_cons.1 hcases
    rw [namesAll_cons] at hn
    obtain ⟨hnbody, hncases⟩ := List.forall_mem_append.1 hn
    refine (Stmt.lowerAll_reports_of (l := body) hbody hs hnbody).bind fun code t _ hcode _ => ?_
    exact (ih hcases (hs.mono (Stmt.adds_lowerAll body hcode)) hncases _).before
      fun _ _ _ _ _ _ => ⟨_, _, rfl, trivial⟩

theorem Case.exists_lowerDispatch (selector : Operand) (first : ℕ) (cases : List Case)
    (s : NameSupply) : ∃ code t, lowerDispatch selector first cases s = .ok (code, t) := by
  cases cases with
  | nil => exact ⟨_, _, rfl⟩
  | cons c cases => exact ⟨_, _, rfl⟩

namespace Stmt

theorem reportsWell_assign (target : String) (e : Expr) : (assign target e).ReportsWell types := by
  intro s hs hn
  rw [names_assign] at hn
  obtain ⟨htarget, he⟩ := List.forall_mem_cons.1 hn
  refine (e.lower_reports hs he).bind fun x t source hx hsource => ?_
  refine (typeOf_reports (hs.mono (e.adds_lower hx)) htarget).bind fun ty u ty' _ hty => ?_
  subst hsource hty
  refine (ofExcept_reports ?_).before fun _ _ _ _ _ _ => ⟨_, _, rfl, trivial⟩
  obtain ⟨code, o, source⟩ := x
  cases source <;> cases ty <;> rfl

theorem reportsWell_switch {e : Expr} {cases : List Case} {otherwise : List Stmt}
    (hcases : ∀ c ∈ cases, ∀ st ∈ c.body, st.ReportsWell types)
    (hother : ∀ st ∈ otherwise, st.ReportsWell types) :
    (switch e cases otherwise).ReportsWell types := by
  intro s hs hn
  rw [names_switch] at hn
  obtain ⟨hne, hn⟩ := List.forall_mem_append.1 hn
  obtain ⟨hnother, hncases⟩ := List.forall_mem_append.1 hn
  refine (e.lower_reports hs hne).bind fun x s₁ ty hx hty => ?_
  have hs₁ := hs.mono (e.adds_lower hx)
  refine (ofExcept_reports ?_).bind fun selector u _ hsel _ => ?_
  · subst hty
    obtain ⟨code, o, ty⟩ := x
    cases ty <;> rfl
  obtain rfl : s₁ = u := (ofExcept_eq_ok_iff.1 hsel).2.symm
  refine (ofExcept_reports ?_).bind fun _ u _ hdist _ => ?_
  · rw [Case.checkDistinct_eq]
    cases failIf (duplicate? (cases.map Case.number)) <;> rfl
  obtain rfl : s₁ = u := (ofExcept_eq_ok_iff.1 hdist).2.symm
  -- the numbers of the cases are distinct, and labels can always be drawn
  refine Reports.after rfl (Reports.after rfl ?_)
  obtain ⟨head, s₂, hhead⟩ := Case.exists_lowerDispatch selector s₁.freshLabel.2.nextLabel cases
    (s₁.freshLabel.2.freshLabels cases.length).2
  refine Reports.after hhead ?_
  have hs₂ := hs₁.mono ((s₁.le_freshLabel.trans (NameSupply.le_freshLabels _ _)).trans
    (Case.adds_lowerDispatch _ _ _ hhead))
  refine (lowerAll_reports_of hother hs₂ hnother).bind fun code s₃ _ hcode _ => ?_
  exact (Case.lowerAll_reports_of hcases (hs₂.mono (adds_lowerAll _ hcode)) hncases _ _).before
    fun _ _ _ _ _ _ => ⟨_, _, rfl, trivial⟩

theorem reportsWell (st : Stmt) : st.ReportsWell types := by
  induction st using Stmt.induction with
  | assign target e => exact reportsWell_assign target e
  | input target =>
    intro s hs hn
    have htarget : Settled types target := hn target (by simp)
    exact (typeOf_reports hs htarget).bind fun _ _ _ _ _ => reports_of_ok rfl trivial
  | output e =>
    intro s hs hn
    rw [names_output] at hn
    exact (e.lower_reports hs hn).bind fun _ _ _ _ _ => reports_of_ok rfl trivial
  | ite c yes no hyes hno =>
    intro s hs hn
    rw [names_ite] at hn
    obtain ⟨hnc, hn⟩ := List.forall_mem_append.1 hn
    obtain ⟨hnyes, hnno⟩ := List.forall_mem_append.1 hn
    refine Reports.after rfl (Reports.after rfl (Reports.after rfl ?_))
    have hs₀ : (s.freshLabels 3).2.Agrees types := hs.mono (s.le_freshLabels 3)
    refine (c.lower_reports hs₀ hnc).bind fun test s₁ _ htest _ => ?_
    have hs₁ := hs₀.mono (c.adds_lower htest)
    refine (hyes hs₁ hnyes).bind fun yesCode s₂ _ hyesCode _ => ?_
    exact (hno (hs₁.mono (yes.adds_lower hyesCode)) hnno).before
      fun _ _ _ _ _ _ => ⟨_, _, rfl, trivial⟩
  | loop c body hbody =>
    intro s hs hn
    rw [names_loop] at hn
    obtain ⟨hnc, hnbody⟩ := List.forall_mem_append.1 hn
    refine Reports.after rfl (Reports.after rfl ?_)
    have hs₀ : (s.freshLabels 2).2.Agrees types := hs.mono (s.le_freshLabels 2)
    refine (c.lower_reports hs₀ hnc).bind fun test s₁ _ htest _ => ?_
    exact (hbody (hs₀.mono (c.adds_lower htest)) hnbody).before
      fun _ _ _ _ _ _ => ⟨_, _, rfl, trivial⟩
  | switch e cases otherwise hcases hother => exact reportsWell_switch hcases hother
  | leave => exact fun s _ _ => reports_of_error rfl
  | block body hbody =>
    intro s hs hn
    rw [names_block] at hn
    exact lowerAll_reports_of hbody hs hn

end Stmt

/-! ### Faults -/

/-- The faults that the body of a program can have. -/
def Fault.OfBody : Fault → Prop
  | undeclared _ | narrowing _ | selector _ | duplicateCase _ | unsupported _ => True
  | redeclared _ _ | valueless _ | unplacedLabel _ | duplicateLabel _ => False

/-- The fault of a check, if it has one, is one that a body can have. -/
def FailsInBody {α : Type} (r : Except Fault α) : Prop := ∀ ⦃e⦄, r = .error e → e.OfBody

section FailsInBody

variable {α β : Type}

theorem failsInBody_ok (a : α) : FailsInBody (.ok a) := fun _ h => nomatch h

theorem FailsInBody.bind {r : Except Fault α} {g : α → Except Fault β} (hr : FailsInBody r)
    (hg : ∀ a, FailsInBody (g a)) : FailsInBody (r >>= g) := by
  intro e h
  cases r with
  | error e' =>
    obtain rfl : e' = e := Except.error.inj h
    exact hr rfl
  | ok a => exact hg a h

theorem failsInBody_failIf {o : Option Fault} (h : ∀ e ∈ o, e.OfBody) : FailsInBody (failIf o) := by
  cases o with
  | none => exact failsInBody_ok ()
  | some e =>
    intro e' he
    obtain rfl : e = e' := Except.error.inj he
    exact h e rfl

end FailsInBody

theorem failsInBody_declaredType (name : String) : FailsInBody (declaredType types name) := by
  unfold declaredType
  cases types name with
  | some ty => exact failsInBody_ok ty
  | none =>
    intro e h
    obtain rfl := Except.error.inj h
    trivial

theorem Expr.failsInBody_check (e : Expr) : FailsInBody (e.check types) := by
  induction e with
  | lit v => exact failsInBody_ok _
  | var name => exact failsInBody_declaredType name
  | arith op l r ihl ihr => exact ihr.bind fun _ => ihl.bind fun _ => failsInBody_ok _
  | cast ty e ih => exact ih.bind fun _ => failsInBody_ok _

theorem Cond.failsInBody_check (c : Cond) : FailsInBody (c.check types) := by
  induction c with
  | or l r ihl ihr => exact ihr.bind fun _ => ihl
  | and l r ihl ihr => exact ihr.bind fun _ => ihl
  | not c ih => exact ih
  | rel op l r =>
    exact r.failsInBody_check.bind fun _ => l.failsInBody_check.bind fun _ => failsInBody_ok _

theorem Stmt.failsInBody_checkAll_of {l : List Stmt} (h : ∀ st ∈ l, FailsInBody (st.check types)) :
    FailsInBody (checkAll types l) := by
  induction l with
  | nil => exact failsInBody_ok _
  | cons st l ih =>
    obtain ⟨hst, hl⟩ := List.forall_mem_cons.1 h
    exact hst.bind fun _ => ih hl

theorem Case.failsInBody_checkAll_of {cases : List Case}
    (h : ∀ c ∈ cases, ∀ st ∈ c.body, FailsInBody (st.check types)) :
    FailsInBody (checkAll types cases) := by
  induction cases with
  | nil => exact failsInBody_ok _
  | cons c cases ih =>
    obtain ⟨number, body⟩ := c
    obtain ⟨hbody, hcases⟩ := List.forall_mem_cons.1 h
    exact (Stmt.failsInBody_checkAll_of hbody).bind fun _ => ih hcases

theorem Stmt.failsInBody_check (st : Stmt) : FailsInBody (st.check types) := by
  induction st using Stmt.induction with
  | assign target e =>
    refine e.failsInBody_check.bind fun source => (failsInBody_declaredType _).bind fun ty => ?_
    refine failsInBody_failIf ?_
    cases source <;> cases ty <;> simp [narrowing?, Fault.OfBody]
  | input target => exact (failsInBody_declaredType _).bind fun _ => failsInBody_ok _
  | output e => exact e.failsInBody_check.bind fun _ => failsInBody_ok _
  | ite c yes no hyes hno => exact c.failsInBody_check.bind fun _ => hyes.bind fun _ => hno
  | loop c body hbody => exact c.failsInBody_check.bind fun _ => hbody
  | switch e cases otherwise hcases hother =>
    refine e.failsInBody_check.bind fun ty => (failsInBody_failIf ?_).bind fun _ =>
      (failsInBody_failIf ?_).bind fun _ => (failsInBody_checkAll_of hother).bind fun _ =>
      Case.failsInBody_checkAll_of hcases
    · cases ty <;> simp [selector?, Fault.OfBody]
    · intro f hf
      obtain ⟨before, n, -, -, hn⟩ := exists_of_scan hf
      split_ifs at hn
      obtain rfl := Option.some.inj hn
      trivial
  | leave =>
    intro e h
    obtain rfl := Except.error.inj h
    trivial
  | block body hbody => exact failsInBody_checkAll_of hbody

/-! ### Programs -/

namespace Program

theorem declareAll_reports (p : Program) :
    (Lower.declareAll p.declared).Reports {} (failIf (redeclaration? p.declared))
      fun _ _ => True := by
  have hdecl := Scope.declareAll_eq {} p.declared
  simp only [Scope.find?_empty, Option.none_or] at hdecl
  rw [redeclaration?, ← hdecl]
  unfold Lower.Reports Lower.declareAll
  cases ({} : Scope).declareAll p.declared with
  | error e => rfl
  | ok scope => trivial

theorem lowerItems_reports {p : Program} (h : ∀ x ∈ p.mentioned, Settled p.types x) :
    p.lowerItems.Reports {} p.check fun _ _ => True := by
  refine p.declareAll_reports.bind fun _ s _ hs _ => ?_
  obtain ⟨scope, hscope, rfl⟩ := Lower.declareAll_ok hs
  refine Stmt.lowerAll_reports_of (fun st _ => st.reportsWell) (fun x _ => ?_) h
  exact find?_of_declareAll hscope x

/-- Once there is symbolic code nothing can fail. -/
theorem map_build_eq (p : Program) (o : Options) :
    (p.build o).map (fun _ => ()) = p.lower.map fun _ => () := by
  unfold build
  cases hf : p.lower with
  | error e => rfl
  | ok f =>
    obtain ⟨x, hx⟩ := exists_link hf o.signature
    simp [bind, Except.bind, hx, Except.map]

end Program

/-- **The first fault.** Unless the body of a program uses an undeclared name that a temporary may
take, lowering it, building it and compiling it all end as checking it does: without a fault, or
with the fault that the checker finds. This is a fault that a body can have, or a name that was
declared before. Emission ends in the same way: no value is ever missing where it is taken out of a
fragment, and no temporary is ever refused. -/
theorem compilation_reports_first_fault (p : Program)
    (h : ∀ x ∈ p.mentioned, p.types x = none → ∀ n, x ≠ tempName n) :
    ((∀ e : Expr, e.emit.Valued) ∧ (∀ c : Cond, c.emit.Valued) ∧ p.emit = p.lower) ∧
    p.lower.map (fun _ => ()) = p.check ∧
    (∀ o, (p.build o).map (fun _ => ()) = p.check ∧
      (p.compile o).map (fun _ => ()) = p.check) ∧
    ∀ e, p.check = .error e → e.OfBody ∨
      ∃ before name ty later after, e = .redeclared name ty ∧
        p.declared = before ++ (name, later) :: after ∧ before.lookup name = some ty := by
  have hlower : p.lower.map (fun _ => ()) = p.check := by
    rw [← (Program.lowerItems_reports h).map_eq, Program.lower]
    simp only [StateT.run]
    cases p.lowerItems {} <;> rfl
  refine ⟨⟨Expr.valued_emit, Cond.valued_emit, p.emit_eq_lower⟩, hlower, fun o => ?_,
    fun e he => ?_⟩
  · have hbuild := (p.map_build_eq o).trans hlower
    refine ⟨hbuild, ?_⟩
    rw [← hbuild, Program.compile]
    cases p.build o <;> rfl
  · unfold Program.check at he
    cases hre : redeclaration? p.declared with
    | none =>
      rw [hre] at he
      exact Or.inl (Stmt.failsInBody_checkAll_of (fun st _ => st.failsInBody_check) he)
    | some f =>
      rw [hre] at he
      obtain rfl : f = e := Except.error.inj he
      obtain ⟨before, ⟨name, later⟩, after, hdecl, hf⟩ := exists_of_scan hre
      obtain ⟨ty, hty, rfl⟩ := Option.map_eq_some_iff.1 hf
      exact Or.inr ⟨before, name, ty, later, after, rfl, hdecl, hty⟩

theorem compilation_reports_first_fault_right_operand :
    Program.compile ⟨[⟨["n"], .int⟩], [.assign "m" (.arith .add (.var "x") (.var "y")), .leave]⟩ =
      .error (.undeclared "y") := by
  have hname : ∀ x ∈ ["m", "x", "y"], ∀ n, x ≠ tempName n := by
    intro x hx n he
    have hhead : x.toList.head? = some '_' := by simp [he, tempName]
    have hother : ∀ y ∈ ["m", "x", "y"], y.toList.head? ≠ some '_' := by decide
    exact hother x hx hhead
  obtain ⟨-, -, hall, -⟩ := compilation_reports_first_fault
    ⟨[⟨["n"], .int⟩], [.assign "m" (.arith .add (.var "x") (.var "y")), .leave]⟩
    fun x hx _ => hname x hx
  have hcompile := (hall {}).2
  rw [show Program.check _ = .error (.undeclared "y") from rfl] at hcompile
  cases hc : Program.compile
      ⟨[⟨["n"], .int⟩], [.assign "m" (.arith .add (.var "x") (.var "y")), .leave]⟩ with
  | error e =>
    rw [hc] at hcompile
    rw [Except.error.inj hcompile]
  | ok text =>
    rw [hc] at hcompile
    cases hcompile

end QuadCode
