import QuadCode.Proofs.Temporaries

/-!
# Stores

A declared variable changes only where the program says so: the instructions that
write declared variables are those of the statements that store a value, one for
each statement and in the same order.

* `st.StoredBy i`: the instruction `i` stores the value of the statement `st`;
* `Stores D parts code`: the instructions of `code` that write a name of `D` store
  the values of the statements in `parts`. So it is for lowered statements
  (`Stmt.storesWell`), since all else writes temporaries.
-/

namespace QuadCode

/-- The instruction stores the value of the statement. -/
def Stmt.StoredBy {α : Type} : Stmt → Instr α → Prop
  | .assign target _, i =>
    (∃ ty src, i = .copy ty target src) ∨ ∃ src, i = .convert .float target src
  | .input target, i => ∃ ty, i = .read ty target
  | _, _ => False

/-- The instruction writes a name that is in scope. -/
def Instr.writesTo {α : Type} (types : String → Option Scalar) (i : Instr α) : Bool :=
  i.dst?.any fun y => (types y).isSome

/-- The statements that store a value. -/
def Stmt.stores (parts : List Stmt) : List Stmt := parts.filter fun st => st.target?.isSome

/-- The instructions that write a name of `D` are those of the statements that store a value, in the
same order. -/
def Stores (D : Scope) (parts : List Stmt) (code : List Item) : Prop :=
  List.Forall₂ Stmt.StoredBy (Stmt.stores parts) ((instrsIn code).filter (Instr.writesTo D.find?))

namespace Stores

variable {D : Scope} {l m : List Stmt} {c d : List Item}

theorem append (hc : Stores D l c) (hd : Stores D m d) : Stores D (l ++ m) (c ++ d) := by
  unfold Stores Stmt.stores at *
  rw [List.filter_append, instrsIn_append, List.filter_append]
  exact List.rel_append hc hd

theorem of_accounts {names : List String} {s t : NameSupply} (h : Accounts names [] s t c)
    (hD : D ≤ s.scope) : Stores D [] c := by
  have hnone : (instrsIn c).filter (Instr.writesTo D.find?) = [] := by
    rw [List.filter_eq_nil_iff]
    intro i hi hw
    obtain ⟨y, hy, hscope⟩ := (Option.any_eq_true _ _).1 hw
    have hgain := ((h.mem_iff y).1 (mem_writesIn_iff.2 ⟨i, hi, hy⟩)).resolve_right List.not_mem_nil
    exact Scope.find?_ne_none_mono hD (Option.isSome_iff_ne_none.1 hscope) hgain.1
  rw [Stores, hnone]
  exact .nil

/-- The code may be followed by code that writes nothing. -/
theorem skip (hc : Stores D l c) (hd : writesIn d = []) : Stores D l (c ++ d) := by
  have hnone : (instrsIn d).filter (Instr.writesTo D.find?) = [] := by
    rw [List.filter_eq_nil_iff]
    intro i hi hw
    obtain ⟨y, hy, -⟩ := (Option.any_eq_true _ _).1 hw
    have hmem := mem_writesIn_iff.2 ⟨i, hi, hy⟩
    rw [hd] at hmem
    exact absurd hmem List.not_mem_nil
  rwa [Stores, instrsIn_append, List.filter_append, hnone, List.append_nil]

theorem nil : Stores D [] [] := List.Forall₂.nil

theorem cons_of_none {st : Stmt} (h : Stores D l c) (hst : st.target? = none) :
    Stores D (st :: l) c := by
  rwa [Stores, Stmt.stores, List.filter_cons_of_neg (by simp [hst])]

/-- Code that ends with the instruction of a statement. -/
theorem instr {st : Stmt} {y : String} {i : Instr Label} (hst : st.target? = some y)
    (hi : i.dst? = some y) (hy : D.find? y ≠ none) (hstored : st.StoredBy i) :
    Stores D [st] [.instr i] := by
  have hw : i.writesTo D.find? = true := by
    simp [Instr.writesTo, hi, Option.isSome_iff_ne_none, hy]
  have hinstrs : (instrsIn [.instr i]).filter (Instr.writesTo D.find?) = [i] :=
    List.filter_cons_of_pos hw
  have hstores : Stmt.stores [st] = [st] := List.filter_cons_of_pos (by simp [hst])
  rw [Stores, hinstrs, hstores]
  exact .cons hstored .nil

end Stores

section StoresOfStmts

variable {D : Scope} {s t : NameSupply}

/-- The code of a statement stores what the statements inside it assign. -/
def Stmt.StoresWell (D : Scope) (st : Stmt) : Prop := ∀ ⦃s code t⦄, st.lower s = .ok (code, t) →
  D ≤ s.scope → (∀ y ∈ st.names, D.find? y ≠ none) → Stores D st.parts code

theorem Stmt.lowerAll_stores_of {l : List Stmt} (hl : ∀ st ∈ l, st.StoresWell D)
    {code : List Item} (h : lowerAll l s = .ok (code, t)) (hle : D ≤ s.scope)
    (hD : ∀ y ∈ namesAll l, D.find? y ≠ none) : Stores D (partsAll l) code := by
  induction l generalizing s code with
  | nil =>
    obtain ⟨rfl, -⟩ := lowerAll_nil_ok h
    exact .nil
  | cons st l ih =>
    obtain ⟨hst, hl⟩ := List.forall_mem_cons.1 hl
    obtain ⟨first, u, rest, hfirst, hrest, rfl⟩ := lowerAll_cons_ok h
    rw [namesAll_cons, List.forall_mem_append] at hD
    have hleu := hle.trans (NameSupply.scope_mono (st.adds_lower hfirst))
    exact (hst hfirst hle hD.1).append (ih hl hrest hleu hD.2)

theorem Case.lowerAll_stores_of {cases : List Case}
    (hcases : ∀ c ∈ cases, ∀ st ∈ c.body, st.StoresWell D) {endLabel : Label} {first : ℕ}
    {code : List Item} (h : lowerAll endLabel first cases s = .ok (code, t)) (hle : D ≤ s.scope)
    (hD : ∀ y ∈ namesAll cases, D.find? y ≠ none) : Stores D (partsAll cases) code := by
  induction cases generalizing s first code with
  | nil =>
    obtain ⟨rfl, -⟩ := lowerAll_nil_ok h
    exact .nil
  | cons c cases ih =>
    obtain ⟨number, body⟩ := c
    obtain ⟨hbody, hcases⟩ := List.forall_mem_cons.1 hcases
    obtain ⟨bodyCode, u, rest, hb, hrest, rfl⟩ := lowerAll_cons_ok h
    rw [namesAll_cons, List.forall_mem_append] at hD
    have hleu := hle.trans (NameSupply.scope_mono (Stmt.adds_lowerAll _ hb))
    have hbodyCode := (Stores.nil.skip (d := [.mark ⟨first⟩]) rfl).append
      (Stmt.lowerAll_stores_of hbody hb hle hD.1)
    exact (hbodyCode.skip rfl).append (ih hcases hrest hleu hD.2)

namespace Stmt

theorem storesWell_ite {c : Cond} {yes no : Stmt} (hyes : yes.StoresWell D)
    (hno : no.StoresWell D) : (ite c yes no).StoresWell D := by
  intro s code t h hle hD
  obtain ⟨test, s₁, yesCode, s₂, noCode, hc, hy, hn, rfl⟩ := lower_ite_ok h
  simp only [names_ite, List.forall_mem_append] at hD
  obtain ⟨-, hDy, hDn⟩ := hD
  have hle₁ := hle.trans (Cond.lower_accounts hc).of_freshLabels.le.scope
  have hle₂ := hle₁.trans (NameSupply.scope_mono (yes.adds_lower hy))
  have htest : Stores D [] test.code := .of_accounts (Cond.lower_accounts hc) hle
  rw [parts]
  exact Stores.cons_of_none (((((htest.skip rfl).append (hyes hy hle₁ hDy)).skip rfl).append
    (hno hn hle₂ hDn)).skip rfl) rfl

theorem storesWell_loop {c : Cond} {body : Stmt} (hbody : body.StoresWell D) :
    (loop c body).StoresWell D := by
  intro s code t h hle hD
  obtain ⟨test, s₁, bodyCode, hc, hb, rfl⟩ := lower_loop_ok h
  simp only [names_loop, List.forall_mem_append] at hD
  have hle₁ := hle.trans (Cond.lower_accounts hc).of_freshLabels.le.scope
  have htest : Stores D [] test.code := .of_accounts (Cond.lower_accounts hc) hle
  have hstart := (Stores.nil.skip (d := [.mark ⟨s.nextLabel⟩]) rfl).append htest
  rw [parts]
  exact Stores.cons_of_none (((hstart.skip rfl).append (hbody hb hle₁ hD.2)).skip rfl) rfl

theorem storesWell_switch {e : Expr} {cases : List Case} {otherwise : List Stmt}
    (hcases : ∀ c ∈ cases, ∀ st ∈ c.body, st.StoresWell D)
    (hother : ∀ st ∈ otherwise, st.StoresWell D) : (switch e cases otherwise).StoresWell D := by
  intro s code t h hle hD
  obtain ⟨x, s₁, head, s₂, otherCode, s₃, caseCode, hx, -, -, hhead, ho, hca, rfl⟩ :=
    lower_switch_ok h
  simp only [names_switch, List.forall_mem_append] at hD
  obtain ⟨-, hDo, hDc⟩ := hD
  have hle₁ := hle.trans (NameSupply.scope_mono (e.adds_lower hx))
  have hhead' := (Case.lowerDispatch_accounts hhead).of_freshLabels.of_freshLabels (n := 1)
  have hle₂ := hle₁.trans hhead'.le.scope
  have hle₃ := hle₂.trans (NameSupply.scope_mono (adds_lowerAll _ ho))
  have hxcode : Stores D [] x.code := .of_accounts (Expr.lower_accounts hx) hle
  have hheadCode : Stores D [] head := .of_accounts hhead' hle₁
  have hotherCode := (hxcode.append hheadCode).append (lowerAll_stores_of hother ho hle₂ hDo)
  rw [parts]
  exact Stores.cons_of_none
    (((hotherCode.skip rfl).append (Case.lowerAll_stores_of hcases hca hle₃ hDc)).skip rfl) rfl

theorem storedBy_of_store {v : Value} {target : String} {e : Expr} {ty : Scalar} {i : Instr Label}
    (h : v.store target ty = .ok i) : (assign target e).StoredBy i := by
  obtain ⟨o, from_⟩ := v
  cases from_ <;> cases ty <;> simp only [Value.store, Except.ok.injEq, reduceCtorEq] at h
  case int.float => exact Or.inr ⟨o, h.symm⟩
  all_goals exact Or.inl ⟨_, o, h.symm⟩

theorem storesWell (D : Scope) (st : Stmt) : st.StoresWell D := by
  induction st using Stmt.induction with
  | assign target e =>
    intro s code t h hle hD
    obtain ⟨x, ty, i, hx, -, hi, rfl⟩ := lower_assign_ok h
    have hxcode : Stores D [] x.code := .of_accounts (Expr.lower_accounts hx) hle
    have htarget : D.find? target ≠ none := hD target (by simp)
    exact hxcode.append (.instr rfl (Value.dst?_of_store hi) htarget (storedBy_of_store hi))
  | input target =>
    intro s code t h hle hD
    obtain ⟨ty, -, rfl, -⟩ := lower_input_ok h
    exact .instr rfl rfl (hD target (by simp)) ⟨ty, rfl⟩
  | output e =>
    intro s code t h hle hD
    obtain ⟨x, hx, rfl⟩ := lower_output_ok h
    have hxcode : Stores D [] x.code := .of_accounts (Expr.lower_accounts hx) hle
    exact (hxcode.skip rfl).cons_of_none rfl
  | ite c yes no hyes hno => exact storesWell_ite hyes hno
  | loop c body hbody => exact storesWell_loop hbody
  | switch e cases otherwise hcases hother => exact storesWell_switch hcases hother
  | leave => exact fun s code t h => absurd h not_lower_leave_ok
  | block body hbody =>
    intro s code t h hle hD
    rw [names_block] at hD
    rw [parts]
    exact (lowerAll_stores_of hbody h hle hD).cons_of_none rfl

end Stmt

end StoresOfStmts

theorem Stmt.StoredBy.mapTarget {α β : Type} {f : α → Option β} {st : Stmt} {i : Instr α}
    {j : Instr β} (hst : st.StoredBy i) (h : i.mapTarget f = some j) : st.StoredBy j := by
  cases st with
  | assign target e =>
    rcases hst with ⟨ty, src, rfl⟩ | ⟨src, rfl⟩
    · exact Or.inl ⟨ty, src, (Option.some.inj h).symm⟩
    · exact Or.inr ⟨src, (Option.some.inj h).symm⟩
  | input target =>
    obtain ⟨ty, rfl⟩ := hst
    exact ⟨ty, (Option.some.inj h).symm⟩
  | _ => exact hst.elim

theorem Stmt.forall₂_storedBy_of_mapTarget {α β : Type} {f : α → Option β} {l : List Stmt}
    {a : List (Instr α)} {b : List (Instr β)} (h : List.Forall₂ Stmt.StoredBy l a)
    (hab : List.Forall₂ (fun i j => i.mapTarget f = some j) a b) :
    List.Forall₂ Stmt.StoredBy l b := by
  induction hab generalizing l with
  | nil =>
    obtain rfl := List.forall₂_nil_right_iff.1 h
    exact .nil
  | cons hij _ ih =>
    obtain ⟨st, l, hst, hl, rfl⟩ := List.forall₂_cons_right_iff.1 h
    exact .cons (hst.mapTarget hij) (ih hl)

/-- Linking keeps the instructions that store values. -/
theorem Fragment.storedBy_of_link {f : Fragment} {signature : String} {x : Executable}
    {D : Scope} {l : List Stmt} (h : f.link signature = .ok x) (hf : Stores D l f.items) :
    List.Forall₂ Stmt.StoredBy (Stmt.stores l) (x.instrs.filter (Instr.writesTo D.find?)) := by
  obtain ⟨-, -, hlines⟩ := link_ok_iff.1 h
  have hsame : ∀ {i : Instr Label} {j : Instr ℕ},
      i.mapTarget (fun l => l.addressIn? f.items) = some j →
        j.writesTo D.find? = i.writesTo D.find? := by
    intro i j hij
    rw [Instr.writesTo, Instr.writesTo, Instr.dst?_of_mapTarget hij]
  have hkept := List.rel_filter (p := Instr.writesTo D.find?) (q := Instr.writesTo D.find?)
    (fun i j hij => by simp only [hsame hij]) hlines
  refine Stmt.forall₂_storedBy_of_mapTarget ?_ hkept
  -- the halt behind the code writes nothing
  rw [lines, List.filter_append, show [Instr.halt].filter _ = [] from rfl, List.append_nil]
  exact hf

end QuadCode
