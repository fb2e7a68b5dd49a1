import QuadCode.Proofs.Correspondence

/-!
# Renaming

What the variables of a program are called does not matter. If its names are
replaced by others, different names by different ones, then the names in its code
are replaced in the same way and nothing else changes. Only names that look like
temporaries have to be left out.

* `Program.rename`, `Instr.rename`, `Fault.rename` replace names;
* `Program.Renaming p r`: `r` keeps the names of `p` apart, and no temporary is
  among them, before or after;
* `Program.like_rename`: the renamed program corresponds to the program;
* `build_rename`: building commutes with renaming.
-/

namespace QuadCode

variable (r : String → String)

/-- Replace the names in an expression. -/
def Expr.rename : Expr → Expr
  | lit l => lit l
  | var x => var (r x)
  | arith op a b => arith op a.rename b.rename
  | cast ty a => cast ty a.rename

/-- Replace the names in a condition. -/
def Cond.rename : Cond → Cond
  | or a b => or a.rename b.rename
  | and a b => and a.rename b.rename
  | not a => not a.rename
  | rel op a b => rel op (a.rename r) (b.rename r)

mutual

/-- Replace the names in a statement. -/
def Stmt.rename : Stmt → Stmt
  | .assign x e => .assign (r x) (e.rename r)
  | .input x => .input (r x)
  | .output e => .output (e.rename r)
  | .ite c yes no => .ite (c.rename r) yes.rename no.rename
  | .loop c body => .loop (c.rename r) body.rename
  | .switch e cases otherwise =>
    .switch (e.rename r) (Case.renameAll cases) (Stmt.renameAll otherwise)
  | .leave => .leave
  | .block body => .block (Stmt.renameAll body)

/-- Replace the names in statements. -/
def Stmt.renameAll : List Stmt → List Stmt
  | [] => []
  | s :: l => s.rename :: Stmt.renameAll l

/-- Replace the names in the bodies of cases. -/
def Case.renameAll : List Case → List Case
  | [] => []
  | ⟨n, body⟩ :: cases => ⟨n, Stmt.renameAll body⟩ :: Case.renameAll cases

end

/-- Replace the names in a declaration. -/
def Declaration.rename (d : Declaration) : Declaration := { d with names := d.names.map r }

/-- Replace the names in a program. -/
def Program.rename (p : Program) : Program where
  declarations := p.declarations.map (Declaration.rename r)
  body := Stmt.renameAll r p.body

/-- Replace the name that an operand is. -/
def Operand.rename : Operand → Operand
  | var x => var (r x)
  | lit l => lit l

/-- Replace the names in an instruction. -/
def Instr.rename {α : Type} : Instr α → Instr α
  | copy ty dst src => copy ty (r dst) (src.rename r)
  | read ty dst => read ty (r dst)
  | print ty src => print ty (src.rename r)
  | arith op ty dst a b => arith op ty (r dst) (a.rename r) (b.rename r)
  | compare op ty dst a b => compare op ty (r dst) (a.rename r) (b.rename r)
  | convert ty dst src => convert ty (r dst) (src.rename r)
  | jump target => jump target
  | jumpIfZero target cond => jumpIfZero target (cond.rename r)
  | halt => halt

/-- Replace the names in an executable. -/
def Executable.rename (x : Executable) : Executable :=
  { x with instrs := x.instrs.map (Instr.rename r) }

/-- Replace the name that a fault is about. -/
def Fault.rename : Fault → Fault
  | redeclared x existing => redeclared (r x) existing
  | undeclared x => undeclared (r x)
  | narrowing x => narrowing (r x)
  | e => e

/-! ### Names that stay -/

@[simp] theorem Expr.rename_id (e : Expr) : e.rename id = e := by
  induction e with
  | lit l => rfl
  | var x => rfl
  | arith op a b iha ihb => rw [rename, iha, ihb]
  | cast ty a ih => rw [rename, ih]

@[simp] theorem Cond.rename_id (c : Cond) : c.rename id = c := by
  induction c with
  | or a b iha ihb => rw [rename, iha, ihb]
  | and a b iha ihb => rw [rename, iha, ihb]
  | not a ih => rw [rename, ih]
  | rel op a b => rw [rename, Expr.rename_id, Expr.rename_id]

theorem Stmt.renameAll_id_of {l : List Stmt} (h : ∀ st ∈ l, st.rename id = st) :
    renameAll id l = l := by
  induction l with
  | nil => rfl
  | cons st l ih =>
    obtain ⟨hst, hl⟩ := List.forall_mem_cons.1 h
    rw [renameAll, hst, ih hl]

theorem Case.renameAll_id_of {cases : List Case}
    (h : ∀ c ∈ cases, ∀ st ∈ c.body, st.rename id = st) : renameAll id cases = cases := by
  induction cases with
  | nil => rfl
  | cons c cases ih =>
    obtain ⟨n, body⟩ := c
    obtain ⟨hbody, hcases⟩ := List.forall_mem_cons.1 h
    rw [renameAll, Stmt.renameAll_id_of hbody, ih hcases]

theorem Stmt.rename_id (st : Stmt) : st.rename id = st := by
  induction st using Stmt.induction with
  | assign x e => simp [rename]
  | input x => simp [rename]
  | output e => simp [rename]
  | ite c yes no hyes hno => simp [rename, hyes, hno]
  | loop c body hbody => simp [rename, hbody]
  | switch e cases otherwise hcases hother =>
    simp [rename, Case.renameAll_id_of hcases, renameAll_id_of hother]
  | leave => simp [rename]
  | block body hbody => simp [rename, renameAll_id_of hbody]

@[simp] theorem Operand.rename_id (o : Operand) : o.rename id = o := by cases o <;> rfl

@[simp] theorem Instr.rename_id {α : Type} (i : Instr α) : i.rename id = i := by
  cases i <;> simp [rename]

@[simp] theorem Fault.rename_id (e : Fault) : e.rename id = e := by cases e <;> rfl

/-! ### Renamed programs correspond -/

variable {r} {K : Correspondence}

theorem Expr.like_rename (hlit : ∀ l, K.literal l l) {e : Expr}
    (h : ∀ x ∈ e.names, K.name x (r x)) : e.Like K (e.rename r) := by
  induction e with
  | lit l => exact hlit l
  | var x => exact h x List.mem_cons_self
  | arith op a b iha ihb =>
    obtain ⟨ha, hb⟩ := List.forall_mem_append.1 h
    exact ⟨rfl, iha ha, ihb hb⟩
  | cast ty a ih => exact ⟨rfl, ih h⟩

theorem Cond.like_rename (hlit : ∀ l, K.literal l l) {c : Cond}
    (h : ∀ x ∈ c.names, K.name x (r x)) : c.Like K (c.rename r) := by
  induction c with
  | or a b iha ihb =>
    obtain ⟨ha, hb⟩ := List.forall_mem_append.1 h
    exact ⟨iha ha, ihb hb⟩
  | and a b iha ihb =>
    obtain ⟨ha, hb⟩ := List.forall_mem_append.1 h
    exact ⟨iha ha, ihb hb⟩
  | not a ih => exact ih h
  | rel op a b =>
    obtain ⟨ha, hb⟩ := List.forall_mem_append.1 h
    exact ⟨rfl, Expr.like_rename hlit ha, Expr.like_rename hlit hb⟩

namespace Stmt

theorem likeAll_renameAll_of {l : List Stmt}
    (hl : ∀ st ∈ l, (∀ x ∈ st.names, K.name x (r x)) → st.Like K (st.rename r))
    (h : ∀ x ∈ namesAll l, K.name x (r x)) : LikeAll K l (renameAll r l) := by
  induction l with
  | nil => trivial
  | cons st l ih =>
    obtain ⟨hst, hl⟩ := List.forall_mem_cons.1 hl
    rw [namesAll_cons] at h
    obtain ⟨hnst, hnl⟩ := List.forall_mem_append.1 h
    exact ⟨hst hnst, ih hl hnl⟩

end Stmt

theorem Case.likeAll_renameAll_of {cases : List Case}
    (hcases : ∀ c ∈ cases, ∀ st ∈ c.body, (∀ x ∈ st.names, K.name x (r x)) →
      st.Like K (st.rename r))
    (h : ∀ x ∈ namesAll cases, K.name x (r x)) : LikeAll K cases (renameAll r cases) := by
  induction cases with
  | nil => trivial
  | cons c cases ih =>
    obtain ⟨n, body⟩ := c
    obtain ⟨hbody, hcases⟩ := List.forall_mem_cons.1 hcases
    rw [namesAll_cons] at h
    obtain ⟨hnbody, hncases⟩ := List.forall_mem_append.1 h
    exact ⟨rfl, Stmt.likeAll_renameAll_of hbody hnbody, ih hcases hncases⟩

theorem Stmt.like_rename (hlit : ∀ l, K.literal l l) (st : Stmt)
    (h : ∀ x ∈ st.names, K.name x (r x)) : st.Like K (st.rename r) := by
  induction st using Stmt.induction with
  | assign x e =>
    rw [names_assign] at h
    obtain ⟨hx, he⟩ := List.forall_mem_cons.1 h
    exact ⟨hx, Expr.like_rename hlit he⟩
  | input x => exact h x (by simp)
  | output e =>
    rw [names_output] at h
    exact Expr.like_rename hlit h
  | ite c yes no hyes hno =>
    rw [names_ite] at h
    obtain ⟨hc, h⟩ := List.forall_mem_append.1 h
    obtain ⟨hnyes, hnno⟩ := List.forall_mem_append.1 h
    exact ⟨Cond.like_rename hlit hc, hyes hnyes, hno hnno⟩
  | loop c body hbody =>
    rw [names_loop] at h
    obtain ⟨hc, hnbody⟩ := List.forall_mem_append.1 h
    exact ⟨Cond.like_rename hlit hc, hbody hnbody⟩
  | switch e cases otherwise hcases hother =>
    rw [names_switch] at h
    obtain ⟨he, h⟩ := List.forall_mem_append.1 h
    obtain ⟨hnother, hncases⟩ := List.forall_mem_append.1 h
    exact ⟨Expr.like_rename hlit he, Case.likeAll_renameAll_of hcases hncases,
      likeAll_renameAll_of hother hnother⟩
  | leave => trivial
  | block body hbody =>
    rw [names_block] at h
    exact likeAll_renameAll_of hbody h

namespace Program

/-- The names that a program declares or mentions. -/
def names (p : Program) : List String := p.declared.map Prod.fst ++ p.mentioned

/-- Different names of the program have different new names, and no temporary is among the names or
the new names. -/
structure Renaming (p : Program) (r : String → String) : Prop where
  injOn : Set.InjOn r {x | x ∈ p.names}
  source : ∀ x ∈ p.names, ∀ n, x ≠ tempName n
  image : ∀ x ∈ p.names, ∀ n, r x ≠ tempName n

/-- The new name of a name of the program. All other names stay. -/
def newName (p : Program) (r : String → String) (x : String) : String :=
  if x ∈ p.names then r x else x

/-- A name of the program corresponds to its new name. -/
def Renaming.correspondence {p : Program} (h : p.Renaming r) : Correspondence :=
  .ofNames (fun x y => x ∈ p.names ∧ y = r x)
    (by
      rintro x x' _ _ ⟨hx, rfl⟩ ⟨hx', rfl⟩
      exact (h.injOn.eq_iff hx hx').symm)
    (by
      rintro x _ ⟨hx, rfl⟩ n
      exact iff_of_false (h.source x hx n) (h.image x hx n))

theorem declared_rename (p : Program) (r : String → String) :
    (p.rename r).declared = p.declared.map (Prod.map r id) := by
  simp [declared, rename, Declaration.rename, List.flatMap_map, List.map_flatMap,
    Function.comp_def]

theorem like_rename {p : Program} (h : p.Renaming r) :
    p.Like h.correspondence (p.rename r) := by
  obtain ⟨hdeclared, hmentioned⟩ :
      (∀ x ∈ p.declared.map Prod.fst, h.correspondence.name x (r x)) ∧
        ∀ x ∈ p.mentioned, h.correspondence.name x (r x) :=
    List.forall_mem_append.1 fun x hx => ⟨hx, rfl⟩
  constructor
  · rw [declared_rename, List.forall₂_map_right_iff, List.forall₂_same]
    exact fun v hv => ⟨hdeclared v.1 (List.mem_map_of_mem hv), rfl⟩
  · exact Stmt.likeAll_renameAll_of (fun st _ => st.like_rename fun _ => rfl) hmentioned

end Program

/-! ### Corresponding names that are new names -/

section NewNames

variable (hname : ∀ {x y}, K.Written x y → y = r x) (hlit : ∀ {l m}, K.literal l m → l = m)

include hname hlit

theorem Operand.Like.eq_rename {o o' : Operand} (h : o.Like K o') : o' = o.rename r := by
  cases o <;> cases o'
  case var.var x y => exact congrArg var (hname h)
  case lit.lit l m => exact congrArg lit (hlit h).symm
  all_goals exact h.elim

theorem Instr.Like.eq_rename {α : Type} {i j : Instr α} (h : i.Like K j) : j = i.rename r := by
  cases h with
  | copy ty hd ho => rw [hname hd, ho.eq_rename hname hlit]; rfl
  | read ty hd => rw [hname hd]; rfl
  | print ty ho => rw [ho.eq_rename hname hlit]; rfl
  | arith op ty hd ha hb =>
    rw [hname hd, ha.eq_rename hname hlit, hb.eq_rename hname hlit]; rfl
  | compare op ty hd ha hb =>
    rw [hname hd, ha.eq_rename hname hlit, hb.eq_rename hname hlit]; rfl
  | convert ty hd ho => rw [hname hd, ho.eq_rename hname hlit]; rfl
  | jump target => rfl
  | jumpIfZero target ho => rw [ho.eq_rename hname hlit]; rfl
  | halt => rfl

end NewNames

theorem Fault.Like.eq_rename (hname : ∀ {x y}, K.name x y → y = r x) {e e' : Fault}
    (h : e.Like K e') : e' = e.rename r := by
  cases h with
  | redeclared ty hxy => rw [hname hxy]; rfl
  | undeclared hxy => rw [hname hxy]; rfl
  | narrowing hxy => rw [hname hxy]; rfl
  | _ => rfl

/-- In the code of a program new names replace names, and temporaries stay. -/
theorem Program.Renaming.eq_newName {p : Program} (h : p.Renaming r) {x y : String}
    (hxy : h.correspondence.Written x y) : y = p.newName r x := by
  rcases hxy with ⟨hx, rfl⟩ | ⟨n, rfl, rfl⟩
  · rw [newName, if_pos hx]
  · rw [newName, if_neg fun hx => h.source _ hx n rfl]

/-- **Renaming.** Building a program under other names gives the same executable with these names,
where temporaries, literals and jump targets stay as they are, or the same fault about the new name
of what it was about. -/
theorem build_rename {p : Program} (h : p.Renaming r) (o : Options) :
    (p.rename r).build o =
      match p.build o with
      | .ok x => .ok (x.rename (p.newName r))
      | .error e => .error (e.rename r) := by
  have hends := Program.build_ends (Program.like_rename h) o
  generalize p.build o = result at hends ⊢
  generalize (p.rename r).build o = result' at hends ⊢
  cases hends with
  | @ok x y hxy =>
    obtain ⟨hsignature, hinstrs⟩ := hxy
    have hmap : x.instrs.map (Instr.rename (p.newName r)) = y.instrs := by
      rw [← List.forall₂_eq_eq_eq, List.forall₂_map_left_iff]
      exact hinstrs.imp fun i j hij => (hij.eq_rename h.eq_newName id).symm
    obtain ⟨instrs, signature⟩ := y
    obtain rfl : signature = x.signature := hsignature
    exact congrArg Except.ok (congrArg (Executable.mk · x.signature) hmap.symm)
  | error he => exact congrArg Except.error (he.eq_rename And.right)

theorem build_rename_swap :
    (∃ x, Program.sample.build = .ok x ∧
      (Program.sample.rename (Equiv.swap "n" "x")).build =
        .ok (x.rename (Program.sample.newName (Equiv.swap "n" "x")))) ∧
    (Program.rename (Equiv.swap "n" "x")
        ⟨[⟨["n"], .int⟩], [.assign "n" (.cast .float (.var "n"))]⟩).build =
      .error (.narrowing "x") := by
  have hnames : ∀ p : Program, (∀ x ∈ p.names, x = "n" ∨ x = "x") →
      p.Renaming (Equiv.swap "n" "x") := by
    intro p hp
    have hfree : ∀ x, x = "n" ∨ x = "x" → ∀ n, x ≠ tempName n := by
      rintro x (rfl | rfl) <;> exact ne_tempName (by decide)
    refine ⟨(Equiv.injective _).injOn, fun x hx => hfree x (hp x hx), fun x hx => hfree _ ?_⟩
    rcases hp x hx with rfl | rfl
    · exact Or.inr (Equiv.swap_apply_left _ _)
    · exact Or.inl (Equiv.swap_apply_right _ _)
  obtain ⟨x, hx⟩ := exists_ok_of_isOk (r := Program.sample.build) (by decide +kernel)
  have hsample := build_rename (hnames Program.sample (by decide +kernel)) {}
  have hnarrow := build_rename
    (hnames ⟨[⟨["n"], .int⟩], [.assign "n" (.cast .float (.var "n"))]⟩ (by decide +kernel)) {}
  rw [hx] at hsample
  exact ⟨⟨x, hx, hsample⟩, hnarrow⟩

end QuadCode
