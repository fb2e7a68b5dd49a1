import QuadCode.Proofs.Renaming
import QuadCode.Proofs.RoundTrip

/-!
# Programs that are equal as numbers

`p == q` compares programs with their float literals taken as numbers. It is not
identity: the two zeros are equal. It is not reflexive either: a program with a NaN
in it differs from itself. Programs that are equal in this sense have code that is
equal in this sense, or the same fault. In the text of their code only the signs of
zeros can differ.

* `Correspondence.numeric`: names correspond to themselves, and literals to those
  that are equal as numbers. Equal trees correspond (`Program.like_of_beq`), so the
  two compilations end alike;
* `Instr.beq_of_like`, `Item.beq_of_like`: code that corresponds is equal;
* `Piece`, `Executable.rows`: the text of code in pieces, with the zeros among its
  literals set apart.

The main statement is `equal_programs_compile_alike`.
-/

namespace QuadCode

/-! ### Equal literals -/

theorem Binary64.eq_or_isZero_of_beq {x y : Binary64} (h : (x == y) = true) :
    x = y ∨ x.isZero = true ∧ y.isZero = true := by
  rw [beq_def] at h
  simp only [Bool.and_eq_true, Bool.or_eq_true, decide_eq_true_eq] at h
  exact h.2

namespace Literal

theorem beq_self_of_int {l : Literal} (h : l.ty = .int) : (l == l) = true := by
  cases l with
  | int n => simp
  | float x => cases h

theorem ty_eq_of_beq {l m : Literal} (h : (l == m) = true) : l.ty = m.ty := by
  cases l <;> cases m <;> first | rfl | cases h

end Literal

/-- Names correspond to themselves, and literals to those that are equal as numbers. -/
def Correspondence.numeric : Correspondence where
  name := Eq
  literal l m := (l == m) = true
  eq_iff := by
    rintro x x' _ _ rfl rfl
    exact Iff.rfl
  temp_iff := by
    rintro x _ rfl n
    exact Iff.rfl
  int := Literal.beq_self_of_int
  ty_eq := Literal.ty_eq_of_beq

theorem Correspondence.Written.eq_of_numeric {x y : String} (h : numeric.Written x y) : y = x := by
  rcases h with h | ⟨n, rfl, rfl⟩
  · exact h.symm
  · rfl

/-! ### Equal trees correspond -/

theorem Expr.like_of_beq {e f : Expr} (h : (e == f) = true) : e.Like .numeric f := by
  induction e generalizing f with
  | lit l =>
    cases f with
    | lit m => exact h
    | _ => cases h
  | var x =>
    cases f with
    | var y => exact beq_iff_eq.1 h
    | _ => cases h
  | arith o a b iha ihb =>
    cases f with
    | arith p c d =>
      change (o == p && a == c && b == d) = true at h
      simp only [Bool.and_eq_true, beq_iff_eq] at h
      exact ⟨h.1.1, iha h.1.2, ihb h.2⟩
    | _ => cases h
  | cast s a ih =>
    cases f with
    | cast t b =>
      change (s == t && a == b) = true at h
      simp only [Bool.and_eq_true, beq_iff_eq] at h
      exact ⟨h.1, ih h.2⟩
    | _ => cases h

theorem Cond.like_of_beq {c d : Cond} (h : (c == d) = true) : c.Like .numeric d := by
  induction c generalizing d with
  | or a b iha ihb =>
    cases d with
    | or a' b' =>
      change (a == a' && b == b') = true at h
      rw [Bool.and_eq_true] at h
      exact ⟨iha h.1, ihb h.2⟩
    | _ => cases h
  | and a b iha ihb =>
    cases d with
    | and a' b' =>
      change (a == a' && b == b') = true at h
      rw [Bool.and_eq_true] at h
      exact ⟨iha h.1, ihb h.2⟩
    | _ => cases h
  | not a ih =>
    cases d with
    | not a' => exact ih h
    | _ => cases h
  | rel r a b =>
    cases d with
    | rel s a' b' =>
      change (r == s && a == a' && b == b') = true at h
      simp only [Bool.and_eq_true, beq_iff_eq] at h
      exact ⟨h.1.1, Expr.like_of_beq h.1.2, Expr.like_of_beq h.2⟩
    | _ => cases h

/-- Statements that are equal to it correspond to it. -/
def Stmt.LikeEqual (st : Stmt) : Prop := ∀ ⦃st'⦄, st.numEq st' = true → st.Like .numeric st'

theorem Stmt.likeAll_of_numEqAll {l m : List Stmt} (hl : ∀ st ∈ l, st.LikeEqual)
    (h : numEqAll l m = true) : LikeAll .numeric l m := by
  induction l generalizing m with
  | nil =>
    cases m with
    | nil => trivial
    | cons st' m => cases h
  | cons st l ih =>
    cases m with
    | nil => cases h
    | cons st' m =>
      obtain ⟨hst, hl⟩ := List.forall_mem_cons.1 hl
      change (st.numEq st' && numEqAll l m) = true at h
      rw [Bool.and_eq_true] at h
      exact ⟨hst h.1, ih hl h.2⟩

theorem Case.likeAll_of_numEqAll {cases cases' : List Case}
    (hcases : ∀ c ∈ cases, ∀ st ∈ c.body, st.LikeEqual) (h : numEqAll cases cases' = true) :
    LikeAll .numeric cases cases' := by
  induction cases generalizing cases' with
  | nil =>
    cases cases' with
    | nil => trivial
    | cons c' cases' => cases h
  | cons c cases ih =>
    obtain ⟨n, body⟩ := c
    cases cases' with
    | nil => cases h
    | cons c' cases' =>
      obtain ⟨n', body'⟩ := c'
      obtain ⟨hbody, hcases⟩ := List.forall_mem_cons.1 hcases
      change (n == n' && Stmt.numEqAll body body' && numEqAll cases cases') = true at h
      simp only [Bool.and_eq_true, beq_iff_eq] at h
      exact ⟨h.1.1, Stmt.likeAll_of_numEqAll hbody h.1.2, ih hcases h.2⟩

theorem Stmt.likeEqual (st : Stmt) : st.LikeEqual := by
  induction st using Stmt.induction with
  | assign x e =>
    intro st' h
    cases st' with
    | assign y f =>
      change (x == y && e == f) = true at h
      simp only [Bool.and_eq_true, beq_iff_eq] at h
      exact ⟨h.1, Expr.like_of_beq h.2⟩
    | _ => cases h
  | input x =>
    intro st' h
    cases st' with
    | input y => exact beq_iff_eq.1 h
    | _ => cases h
  | output e =>
    intro st' h
    cases st' with
    | output f => exact Expr.like_of_beq h
    | _ => cases h
  | ite c yes no hyes hno =>
    intro st' h
    cases st' with
    | ite d yes' no' =>
      change (c == d && yes.numEq yes' && no.numEq no') = true at h
      rw [Bool.and_eq_true, Bool.and_eq_true] at h
      exact ⟨Cond.like_of_beq h.1.1, hyes h.1.2, hno h.2⟩
    | _ => cases h
  | loop c body hbody =>
    intro st' h
    cases st' with
    | loop d body' =>
      change (c == d && body.numEq body') = true at h
      rw [Bool.and_eq_true] at h
      exact ⟨Cond.like_of_beq h.1, hbody h.2⟩
    | _ => cases h
  | switch e cases otherwise hcases hother =>
    intro st' h
    cases st' with
    | switch f cases' otherwise' =>
      change (e == f && Case.numEqAll cases cases' && numEqAll otherwise otherwise') = true at h
      rw [Bool.and_eq_true, Bool.and_eq_true] at h
      exact ⟨Expr.like_of_beq h.1.1, Case.likeAll_of_numEqAll hcases h.1.2,
        likeAll_of_numEqAll hother h.2⟩
    | _ => cases h
  | leave =>
    intro st' h
    cases st' with
    | leave => trivial
    | _ => cases h
  | block body hbody =>
    intro st' h
    cases st' with
    | block body' => exact likeAll_of_numEqAll hbody h
    | _ => cases h

theorem Program.like_of_beq {p q : Program} (h : (p == q) = true) : p.Like .numeric q := by
  change (decide (p.declarations = q.declarations) && Stmt.numEqAll p.body q.body) = true at h
  rw [Bool.and_eq_true, decide_eq_true_eq] at h
  obtain ⟨hdecl, hbody⟩ := h
  refine ⟨?_, Stmt.likeAll_of_numEqAll (fun st _ => st.likeEqual) hbody⟩
  unfold declared
  rw [hdecl, List.forall₂_same]
  exact fun v _ => ⟨rfl, rfl⟩

/-! ### Code that corresponds is equal -/

theorem beq_of_forall₂ {α : Type} [BEq α] {l m : List α}
    (h : List.Forall₂ (fun a b => (a == b) = true) l m) : (l == m) = true := by
  induction h with
  | nil => rfl
  | cons hab _ ih => rw [List.cons_beq_cons, hab, ih, Bool.and_true]

theorem Operand.beq_of_like {o o' : Operand} (h : o.Like .numeric o') : (o == o') = true := by
  cases o <;> cases o'
  case var.var x y =>
    obtain rfl := Correspondence.Written.eq_of_numeric h
    exact beq_self_eq_true y
  case lit.lit l m => exact h
  all_goals exact h.elim

theorem Instr.beq_of_like {α : Type} [DecidableEq α] {i j : Instr α} (h : i.Like .numeric j) :
    (i == j) = true := by
  change instBEqInstr.beq i j = true
  cases h with
  | copy ty hd ho => simp [instBEqInstr.beq, hd.eq_of_numeric, Operand.beq_of_like ho]
  | read ty hd => simp [instBEqInstr.beq, hd.eq_of_numeric]
  | print ty ho => simp [instBEqInstr.beq, Operand.beq_of_like ho]
  | arith op ty hd ha hb =>
    simp [instBEqInstr.beq, hd.eq_of_numeric, Operand.beq_of_like ha, Operand.beq_of_like hb]
  | compare op ty hd ha hb =>
    simp [instBEqInstr.beq, hd.eq_of_numeric, Operand.beq_of_like ha, Operand.beq_of_like hb]
  | convert ty hd ho => simp [instBEqInstr.beq, hd.eq_of_numeric, Operand.beq_of_like ho]
  | jump target => simp [instBEqInstr.beq]
  | jumpIfZero target ho => simp [instBEqInstr.beq, Operand.beq_of_like ho]
  | halt => rfl

theorem Item.beq_of_like {a b : Item} (h : a.Like .numeric b) : (a == b) = true := by
  cases h with
  | mark l => exact beq_self_eq_true l
  | instr hij => exact Instr.beq_of_like hij

/-- Statements leave no value, and neither does the code of a program. -/
theorem Program.value_of_lower {p : Program} {f : Fragment} (h : p.lower = .ok f) :
    f.value = none := by
  unfold lower at h
  cases hrun : p.lowerItems.run {} with
  | error e => simp [hrun, Except.map] at h
  | ok r =>
    simp only [hrun, Except.map, Except.ok.injEq] at h
    rw [← h]

theorem Fragment.beq_of_codeLike {f g : Fragment} (h : CodeLike .numeric f.items g.items)
    (hf : f.value = none) (hg : g.value = none) : (f == g) = true := by
  change (f.items == g.items && f.value == g.value) = true
  rw [beq_of_forall₂ (h.imp fun _ _ => Item.beq_of_like), hf, hg]
  rfl

theorem Executable.beq_of_like {x y : Executable} (hsignature : y.signature = x.signature)
    (h : List.Forall₂ (Instr.Like .numeric) x.instrs y.instrs) : (x == y) = true := by
  change (x.instrs == y.instrs && x.signature == y.signature) = true
  rw [beq_of_forall₂ (h.imp fun _ _ => Instr.beq_of_like), hsignature, beq_self_eq_true]
  rfl

/-! ### Texts in pieces -/

/-- A piece of a text: a literal that is zero, with or without a sign, or any other word. -/
inductive Piece where
  | word (text : String)
  | zero (negative : Bool)

namespace Piece

/-- The text of a piece. -/
def text : Piece → String
  | word text => text
  | zero negative => (if negative then "-" else "") ++ "0.0"

/-- The pieces are the same, but for the signs of zeros. -/
inductive SameButSign : Piece → Piece → Prop where
  | same (a : Piece) : SameButSign a a
  | zero (negative negative' : Bool) : SameButSign (zero negative) (zero negative')

end Piece

/-- The piece that an operand is written as. -/
def Operand.piece : Operand → Piece
  | var name => .word name
  | lit (.int n) => .word (Literal.int n).text
  | lit (.float x) => if x.isZero then .zero x.negative else .word x.text

/-- The pieces of the line of an instruction. -/
def Instr.pieces (i : Instr ℕ) : List Piece :=
  .word i.opcode :: ((i.target?.map Nat.repr).toList ++ i.dst?.toList).map .word ++
    i.reads.map fun o => o.1.piece

/-- The pieces of the lines of code. -/
def Executable.rows (x : Executable) : List (List Piece) := x.instrs.map Instr.pieces

/-- Lines of pieces, with a space between two pieces, and the comment behind them. -/
def layout (rows : List (List Piece)) (signature : String) : String :=
  String.join (rows.map fun row => " ".intercalate (row.map Piece.text) ++ "\n") ++
    "; generated by " ++ signature ++ "\n"

theorem Binary64.text_of_isZero {x : Binary64} (h : x.isZero = true) :
    x.text = x.sign ++ "0.0" := by
  rw [isZero, Bool.and_eq_true, beq_iff_eq, beq_iff_eq] at h
  have hmagnitude : x.magnitude = 0 := by simp [magnitude, significand, h.1, h.2]
  have hwhole : x.isWhole = true := by simp [isWhole, isFinite, h.1, hmagnitude]
  have hdecimal : x.decimal.text = "0.0" := by
    rw [decimal, if_pos hwhole, hmagnitude, Nat.zero_div]
    rfl
  simp [text, isNaN, isInfinite, h.1, hdecimal]

theorem Operand.text_piece (o : Operand) : o.piece.text = o.text := by
  cases o with
  | var name => rfl
  | lit l =>
    cases l with
    | int n => rfl
    | float x =>
      change Piece.text (if x.isZero then .zero x.negative else .word x.text) = x.text
      split_ifs with h
      · exact (Binary64.text_of_isZero h).symm
      · rfl

theorem Instr.text_eq_pieces (i : Instr ℕ) :
    i.text Nat.repr = " ".intercalate (i.pieces.map Piece.text) := by
  have hreads : (i.reads.map fun o => o.1.piece).map Piece.text =
      i.reads.map fun o => o.1.text := by
    rw [List.map_map]
    exact List.map_congr_left fun o _ => o.1.text_piece
  have hword : ∀ l : List String, (l.map Piece.word).map Piece.text = l := by
    intro l
    rw [List.map_map]
    exact List.map_id l
  rw [text, operands_eq, pieces, List.map_append, List.map_cons, hword, hreads, List.cons_append,
    List.append_assoc]
  rfl

theorem Executable.text_eq_layout (x : Executable) : x.text = layout x.rows x.signature := by
  simp only [text, layout, rows, List.map_map, Function.comp_def, Instr.text_eq_pieces]

/-- Literals that are equal as numbers are the same literal, or both are zero. -/
theorem Operand.piece_of_like {o o' : Operand} (h : o.Like .numeric o') :
    o.piece.SameButSign o'.piece := by
  cases o <;> cases o'
  case var.var x y =>
    obtain rfl := Correspondence.Written.eq_of_numeric h
    exact .same _
  case lit.lit l m =>
    cases l <;> cases m
    case int.int n n' =>
      obtain rfl : n = n' := beq_iff_eq.1 h
      exact .same _
    case float.float x y =>
      rcases Binary64.eq_or_isZero_of_beq h with rfl | ⟨hx, hy⟩
      · exact .same _
      · rw [piece, if_pos hx, piece, if_pos hy]
        exact .zero _ _
    all_goals cases h
  all_goals exact h.elim

theorem Instr.pieces_of_like {i j : Instr ℕ} (h : i.Like .numeric j) :
    List.Forall₂ Piece.SameButSign i.pieces j.pieces := by
  cases h with
  | copy ty hd ho =>
    rw [hd.eq_of_numeric]
    exact .cons (.same _) (.cons (.same _) (.cons (Operand.piece_of_like ho) .nil))
  | read ty hd =>
    rw [hd.eq_of_numeric]
    exact .cons (.same _) (.cons (.same _) .nil)
  | print ty ho => exact .cons (.same _) (.cons (Operand.piece_of_like ho) .nil)
  | arith op ty hd ha hb =>
    rw [hd.eq_of_numeric]
    exact .cons (.same _) (.cons (.same _) (.cons (Operand.piece_of_like ha)
      (.cons (Operand.piece_of_like hb) .nil)))
  | compare op ty hd ha hb =>
    rw [hd.eq_of_numeric]
    exact .cons (.same _) (.cons (.same _) (.cons (Operand.piece_of_like ha)
      (.cons (Operand.piece_of_like hb) .nil)))
  | convert ty hd ho =>
    rw [hd.eq_of_numeric]
    cases ty <;>
      exact .cons (.same _) (.cons (.same _) (.cons (Operand.piece_of_like ho) .nil))
  | jump target => exact .cons (.same _) (.cons (.same _) .nil)
  | jumpIfZero target ho =>
    exact .cons (.same _) (.cons (.same _) (.cons (Operand.piece_of_like ho) .nil))
  | halt => exact .cons (.same _) .nil

theorem Executable.rows_of_like {x y : Executable}
    (h : List.Forall₂ (Instr.Like .numeric) x.instrs y.instrs) :
    List.Forall₂ (List.Forall₂ Piece.SameButSign) x.rows y.rows := by
  rw [rows, rows, List.forall₂_map_left_iff, List.forall₂_map_right_iff]
  exact h.imp fun _ _ => Instr.pieces_of_like

/-! ### Programs -/

/-- Both succeed with related results, or both fail with the same fault. -/
def Agree {α : Type} (R : α → α → Prop) : Except Fault α → Except Fault α → Prop
  | .ok a, .ok b => R a b
  | .error e, .error e' => e = e'
  | _, _ => False

theorem agree_of_ends {α : Type} {Q R : α → α → Prop} {r r' : Except Fault α}
    (h : Correspondence.numeric.Ends Q r r') (hR : ∀ a b, r = .ok a → r' = .ok b → Q a b → R a b) :
    Agree R r r' := by
  cases h with
  | ok hab => exact hR _ _ rfl rfl hab
  | error he =>
    have heq := he.eq_rename (r := id) fun hname => Eq.symm hname
    rw [Fault.rename_id] at heq
    exact heq.symm

theorem Agree.map {α β : Type} {R : α → α → Prop} {S : β → β → Prop} {f : α → β}
    {r r' : Except Fault α} (h : Agree R r r') (hS : ∀ a b, R a b → S (f a) (f b)) :
    Agree S (r.map f) (r'.map f) := by
  cases r <;> cases r'
  case ok.ok a b => exact hS a b h
  case error.error e e' => exact h
  all_goals exact h.elim

theorem Program.signature_of_build {p : Program} {o : Options} {x : Executable}
    (h : p.build o = .ok x) : x.signature = o.signature := by
  obtain ⟨f, -, hlink⟩ := build_ok h
  exact (Fragment.link_ok_iff.1 hlink).2.1

/-- **Equality as numbers.** Programs that are equal as numbers have symbolic code that is equal as
numbers, or the same fault, and so have their executables. The texts of these consist of the same
pieces, but for the signs of literals that are zero. -/
theorem equal_programs_compile_alike {p q : Program} (h : (p == q) = true) (o : Options) :
    Agree (fun f g => (f == g) = true) p.lower q.lower ∧
    Agree (fun x y => (x == y) = true) (p.build o) (q.build o) ∧
    Agree (fun a b => ∃ x y, p.build o = .ok x ∧ q.build o = .ok y ∧
      a = layout x.rows o.signature ∧ b = layout y.rows o.signature ∧
      List.Forall₂ (List.Forall₂ Piece.SameButSign) x.rows y.rows) (p.compile o) (q.compile o) := by
  have hlike := Program.like_of_beq h
  have hbuild := Program.build_ends hlike o
  refine ⟨?_, ?_, ?_⟩
  · refine agree_of_ends (Program.lower_ends hlike) fun f g hf hg hfg => ?_
    exact Fragment.beq_of_codeLike hfg (Program.value_of_lower hf) (Program.value_of_lower hg)
  · exact agree_of_ends hbuild fun x y _ _ hxy => Executable.beq_of_like hxy.1 hxy.2
  · have hrows := agree_of_ends (R := fun x y => p.build o = .ok x ∧ q.build o = .ok y ∧
        List.Forall₂ (List.Forall₂ Piece.SameButSign) x.rows y.rows) hbuild
      fun x y hx hy hxy => ⟨hx, hy, Executable.rows_of_like hxy.2⟩
    refine hrows.map fun x y ⟨hx, hy, hxy⟩ => ⟨x, y, hx, hy, ?_, ?_, hxy⟩
    · rw [x.text_eq_layout, Program.signature_of_build hx]
    · rw [y.text_eq_layout, Program.signature_of_build hy]

/-- A program with a zero as a bound and as a factor. -/
def Program.zeroBound (zero : Binary64) : Program where
  declarations := [⟨["x"], .float⟩]
  body := [
    .input "x",
    .loop (.rel .le (.var "x") (.lit (.float zero)))
      (.block [
        .output (.arith .mul (.var "x") (.lit (.float zero))),
        .input "x"])]

/-- The two zeros give programs that are equal as numbers and code that is not the same. -/
theorem equal_programs_compile_alike_zeros :
    let p := Program.zeroBound ⟨0⟩
    let q := Program.zeroBound ⟨0x8000000000000000⟩
    (p == q) = true ∧ p.build ≠ q.build ∧
    Agree (fun f g => (f == g) = true) p.lower q.lower ∧
    Agree (fun x y => (x == y) = true) p.build q.build ∧
    Agree (fun a b => ∃ x y, p.build = .ok x ∧ q.build = .ok y ∧
      a = layout x.rows "cpq 0.1.0" ∧ b = layout y.rows "cpq 0.1.0" ∧
      List.Forall₂ (List.Forall₂ Piece.SameButSign) x.rows y.rows) p.compile q.compile := by
  intro p q
  have hpq : (p == q) = true := by decide +kernel
  exact ⟨hpq, by decide +kernel, equal_programs_compile_alike hpq {}⟩

end QuadCode
