import QuadCode.Proofs.Inversion
import QuadCode.Proofs.Names

/-!
# Labels

Lowering a tree draws labels with consecutive numbers. Its code has a marker for
each of them, places none twice, jumps to nothing else and does not halt. So code
can be put next to other code without a jump from one into the other.

* `Labelled n m code`: the markers of `code` are the labels from `n` up to `m`,
  each once, and its jumps go to them;
* `Expr.lower_labelled`, `Cond.lower_labelled`, `Stmt.labelsWell`: lowered code
  is labelled by what the supply gave out for it, and the number of these labels
  is read off the tree (`Stmt.labelCount`).
-/

namespace QuadCode

/-- The labels of the markers in order. -/
def labelsIn (code : List Item) : List Label := code.filterMap Item.label?

/-- The instructions in order. -/
def instrsIn (code : List Item) : List (Instr Label) := code.filterMap Item.instr?

@[simp] theorem labelsIn_nil : labelsIn [] = [] := rfl

@[simp] theorem labelsIn_mark (l : Label) (code : List Item) :
    labelsIn (.mark l :: code) = l :: labelsIn code := rfl

@[simp] theorem labelsIn_instr (i : Instr Label) (code : List Item) :
    labelsIn (.instr i :: code) = labelsIn code := rfl

@[simp] theorem labelsIn_append (c d : List Item) :
    labelsIn (c ++ d) = labelsIn c ++ labelsIn d := List.filterMap_append

@[simp] theorem instrsIn_nil : instrsIn [] = [] := rfl

@[simp] theorem instrsIn_mark (l : Label) (code : List Item) :
    instrsIn (.mark l :: code) = instrsIn code := rfl

@[simp] theorem instrsIn_instr (i : Instr Label) (code : List Item) :
    instrsIn (.instr i :: code) = i :: instrsIn code := rfl

@[simp] theorem instrsIn_append (c d : List Item) :
    instrsIn (c ++ d) = instrsIn c ++ instrsIn d := List.filterMap_append

/-- The number of a label lies between two bounds. -/
def Label.Between (n m : ℕ) (l : Label) : Prop := n ≤ l.index ∧ l.index < m

/-- The instruction goes on to the next one or jumps to a target with a property. A halt does
neither. -/
def Instr.GoesTo {α : Type} (P : α → Prop) : Instr α → Prop
  | jump target => P target
  | jumpIfZero target _ => P target
  | halt => False
  | _ => True

theorem Instr.GoesTo.mono {α : Type} {P Q : α → Prop} {i : Instr α} (h : i.GoesTo P)
    (hPQ : ∀ l, P l → Q l) : i.GoesTo Q := by
  cases i with
  | jump target => exact hPQ target h
  | jumpIfZero target cond => exact hPQ target h
  | halt => exact h
  | _ => trivial

theorem Instr.GoesTo.of_target {α : Type} {P : α → Prop} {i : Instr α} {l : α} (h : i.GoesTo P)
    (hl : i.target? = some l) : P l := by
  cases i <;> simp only [Instr.target?, reduceCtorEq, Option.some.injEq] at hl
  all_goals exact hl ▸ h

/-- The instructions of the code go on to the next one or jump to labels with a property. -/
def GoesTo (P : Label → Prop) (code : List Item) : Prop := ∀ i ∈ instrsIn code, i.GoesTo P

theorem GoesTo.mono {P Q : Label → Prop} {code : List Item} (h : GoesTo P code)
    (hPQ : ∀ l, P l → Q l) : GoesTo Q code := fun i hi => (h i hi).mono hPQ

@[simp] theorem goesTo_nil (P : Label → Prop) : GoesTo P [] := by simp [GoesTo]

@[simp] theorem goesTo_append {P : Label → Prop} {c d : List Item} :
    GoesTo P (c ++ d) ↔ GoesTo P c ∧ GoesTo P d := by
  simp only [GoesTo, instrsIn_append, List.forall_mem_append]

@[simp] theorem goesTo_mark {P : Label → Prop} {l : Label} {code : List Item} :
    GoesTo P (.mark l :: code) ↔ GoesTo P code := Iff.rfl

@[simp] theorem goesTo_instr {P : Label → Prop} {i : Instr Label} {code : List Item} :
    GoesTo P (.instr i :: code) ↔ i.GoesTo P ∧ GoesTo P code := by
  simp only [GoesTo, instrsIn_instr, List.forall_mem_cons]

/-- The markers of the code are the labels from `n` up to `m`, each once, and its jumps go to
them. -/
structure Labelled (n m : ℕ) (code : List Item) : Prop where
  le : n ≤ m
  count : ∀ l, (labelsIn code).count l = if n ≤ l.index ∧ l.index < m then 1 else 0
  jumps : GoesTo (Label.Between n m) code

theorem count_mark (n : ℕ) (l : Label) (code : List Item) :
    (labelsIn (.mark ⟨n⟩ :: code)).count l =
      (labelsIn code).count l + if l.index = n then 1 else 0 := by
  obtain ⟨k⟩ := l
  by_cases h : n = k
  · simp [h]
  · have h' : ¬ k = n := fun he => h he.symm
    simp [h, h']

namespace Labelled

variable {n m k : ℕ} {c d : List Item}

theorem nil (n : ℕ) : Labelled n n [] := by
  refine ⟨le_rfl, fun l => ?_, goesTo_nil _⟩
  rw [if_neg (fun h => absurd (h.1.trans_lt h.2) (lt_irrefl n))]
  rfl

theorem append (hc : Labelled n m c) (hd : Labelled m k d) : Labelled n k (c ++ d) := by
  have hnm := hc.le
  have hmk := hd.le
  refine ⟨hnm.trans hmk, fun l => ?_, ?_⟩
  · -- the ranges meet at `m` and do not overlap
    rw [labelsIn_append, List.count_append, hc.count, hd.count]
    split_ifs <;> omega
  · rw [goesTo_append]
    exact ⟨hc.jumps.mono fun l h => ⟨h.1, h.2.trans_le hmk⟩,
      hd.jumps.mono fun l h => ⟨hnm.trans h.1, h.2⟩⟩

theorem mem_iff (h : Labelled n m c) {l : Label} : l ∈ labelsIn c ↔ l.Between n m := by
  rw [← List.count_pos_iff, h.count, Label.Between]
  split_ifs with hl <;> simp [hl]

theorem nodup (h : Labelled n m c) : (labelsIn c).Nodup := by
  rw [List.nodup_iff_count_le_one]
  intro l
  rw [h.count]
  split_ifs <;> omega

theorem perm (h : Labelled 0 m c) : (labelsIn c).Perm ((List.range m).map Label.mk) := by
  have hnodup : ((List.range m).map Label.mk).Nodup :=
    List.nodup_range.map fun _ _ he => Label.mk.inj he
  refine (List.perm_ext_iff_of_nodup h.nodup hnodup).2 fun l => ?_
  obtain ⟨k⟩ := l
  simp [h.mem_iff, Label.Between]

end Labelled

/-- Code without markers and jumps. -/
def Straight (code : List Item) : Prop :=
  ∀ item ∈ code, ∃ i, item = .instr i ∧ i.GoesTo fun _ => False

@[simp] theorem straight_nil : Straight [] := by simp [Straight]

@[simp] theorem straight_append {c d : List Item} :
    Straight (c ++ d) ↔ Straight c ∧ Straight d := List.forall_mem_append

@[simp] theorem straight_instr {i : Instr Label} {code : List Item} :
    Straight (.instr i :: code) ↔ (i.GoesTo fun _ => False) ∧ Straight code := by
  simp [Straight]

theorem Straight.labelled {code : List Item} (h : Straight code) (n : ℕ) : Labelled n n code := by
  induction code with
  | nil => exact Labelled.nil n
  | cons item code ih =>
    obtain ⟨⟨i, rfl, hi⟩, hcode⟩ := List.forall_mem_cons.1 h
    obtain ⟨-, hcount, hjumps⟩ := ih hcode
    exact ⟨le_rfl, hcount, goesTo_instr.2 ⟨hi.mono fun _ h => h.elim, hjumps⟩⟩

/-! ### Expressions and conditions -/

variable {s t : NameSupply}

theorem Value.widen_straight {v : Value} {ty : Scalar} {code : List Item} {o : Operand}
    (h : v.widen ty s = .ok ((code, o), t)) : Straight code ∧ t.nextLabel = s.nextLabel := by
  rcases Value.widen_ok h with ⟨-, -, rfl, -, rfl⟩ | ⟨-, rfl, -, rfl⟩
  · simp [Instr.GoesTo]
  · simp

theorem Expr.Operands.le {l r : Expr} {ops : QuadCode.Operands} (h : Expr.Operands l r s ops t) :
    s ≤ t := by
  obtain ⟨right, s₁, left, s₂, hright, hleft, hops⟩ := h
  exact ((r.adds_lower hright).trans (l.adds_lower hleft)).trans (Lowered.adds_balance _ _ hops)

theorem Expr.Operands.straight {l r : Expr} {ops : QuadCode.Operands}
    (h : Expr.Operands l r s ops t)
    (hl : ∀ {s t : NameSupply} {x : Lowered}, l.lower s = .ok (x, t) →
      Straight x.code ∧ t.nextLabel = s.nextLabel)
    (hr : ∀ {s t : NameSupply} {x : Lowered}, r.lower s = .ok (x, t) →
      Straight x.code ∧ t.nextLabel = s.nextLabel) :
    Straight ops.code ∧ t.nextLabel = s.nextLabel := by
  obtain ⟨right, s₁, left, s₂, hright, hleft, hops⟩ := h
  obtain ⟨wl, lhs, u, wr, rhs, hwl, hwr, rfl⟩ := Lowered.balance_ok hops
  obtain ⟨hsr, hnr⟩ := hr hright
  obtain ⟨hsl, hnl⟩ := hl hleft
  obtain ⟨hswl, hnwl⟩ := Value.widen_straight hwl
  obtain ⟨hswr, hnwr⟩ := Value.widen_straight hwr
  exact ⟨by simp [hsr, hsl, hswl, hswr], hnwr.trans (hnwl.trans (hnl.trans hnr))⟩

/-- Expressions need no labels. -/
theorem Expr.lower_straight {e : Expr} {x : Lowered} (h : e.lower s = .ok (x, t)) :
    Straight x.code ∧ t.nextLabel = s.nextLabel := by
  induction e generalizing s x t with
  | lit v =>
    obtain ⟨rfl, rfl⟩ := Expr.lower_lit_ok h
    simp
  | var name =>
    obtain ⟨-, hcode, -, rfl⟩ := Expr.lower_var_ok h
    simp [hcode]
  | arith op l r ihl ihr =>
    obtain ⟨ops, u, hops, rfl, rfl⟩ := Expr.lower_arith_ok h
    obtain ⟨hso, hno⟩ := hops.straight ihl ihr
    exact ⟨by simp [Lowered.inVar, hso, Instr.GoesTo], hno⟩
  | cast ty e ih =>
    rcases Expr.lower_cast_ok h with ⟨-, hx⟩ | ⟨y, u, hy, -, rfl, rfl⟩
    · exact ih hx
    · obtain ⟨hsy, hny⟩ := ih hy
      exact ⟨by simp [Lowered.inVar, hsy, Instr.GoesTo], hny⟩

theorem Expr.lower_labelled {e : Expr} {x : Lowered} (h : e.lower s = .ok (x, t)) :
    Labelled s.nextLabel t.nextLabel x.code := by
  obtain ⟨hx, hn⟩ := Expr.lower_straight h
  rw [hn]
  exact hx.labelled _

theorem Comparison.lower_straight {op : Comparison} {l r : Expr} {x : Lowered}
    (h : op.lower l r s = .ok (x, t)) : Straight x.code ∧ t.nextLabel = s.nextLabel := by
  obtain ⟨ops, u, hops, rfl, rfl⟩ := Comparison.lower_ok h
  obtain ⟨hso, hno⟩ := hops.straight Expr.lower_straight Expr.lower_straight
  exact ⟨by simp [Lowered.inVar, hso, Instr.GoesTo], hno⟩

/-- The code of a disjunction is that of its parts and more code without labels. -/
theorem Lowered.disjoin_straight {left right x : Lowered} (h : left.disjoin right s = .ok (x, t)) :
    (∃ code, x.code = right.code ++ left.code ++ code ∧ Straight code) ∧
      t.nextLabel = s.nextLabel := by
  obtain ⟨rfl, rfl⟩ := Lowered.disjoin_ok h
  exact ⟨⟨_, rfl, by simp [Instr.GoesTo]⟩, rfl⟩

theorem Comparison.lowerOrEqual_straight {strict : Comparison} {l r : Expr} {x : Lowered}
    (h : strict.lowerOrEqual l r s = .ok (x, t)) :
    Straight x.code ∧ t.nextLabel = s.nextLabel := by
  simp only [Comparison.lowerOrEqual, Lower.bind_eq_ok_iff] at h
  obtain ⟨equal, s₁, hequal, less, s₂, hless, hx⟩ := h
  obtain ⟨hse, hne⟩ := Comparison.lower_straight hequal
  obtain ⟨hsl, hnl⟩ := Comparison.lower_straight hless
  obtain ⟨⟨code, hcode, hs⟩, hn⟩ := Lowered.disjoin_straight hx
  exact ⟨by simp [hcode, hse, hsl, hs], hn.trans (hnl.trans hne)⟩

theorem Relation.lower_straight {op : Relation} {l r : Expr} {x : Lowered}
    (h : op.lower l r s = .ok (x, t)) : Straight x.code ∧ t.nextLabel = s.nextLabel := by
  cases op
  case le => exact Comparison.lowerOrEqual_straight h
  case ge => exact Comparison.lowerOrEqual_straight h
  all_goals exact Comparison.lower_straight h

theorem Lowered.conjoin_labelled {left right x : Lowered} {n : ℕ}
    (h : left.conjoin right s = .ok (x, t))
    (hc : Labelled n s.nextLabel (right.code ++ left.code)) :
    Labelled n t.nextLabel x.code ∧ t.nextLabel = s.nextLabel + 1 := by
  obtain ⟨rfl, rfl⟩ := Lowered.conjoin_ok h
  simp only [NameSupply.nextLabel_freshLabel, NameSupply.nextLabel_freshTemp, and_true]
  refine hc.append ⟨Nat.le_succ _, fun l => ?_, ?_⟩
  · simp only [labelsIn_instr, count_mark, labelsIn_nil, List.count_nil]
    split_ifs <;> omega
  · simp [Instr.GoesTo, Label.Between]

/-- The number of conjunctions in a condition. -/
def Cond.conjunctions : Cond → ℕ
  | or l r => l.conjunctions + r.conjunctions
  | and l r => l.conjunctions + r.conjunctions + 1
  | not c => c.conjunctions
  | rel _ _ _ => 0

/-- A condition draws one label for each conjunction. -/
theorem Cond.lower_labelled {c : Cond} {x : Lowered} (h : c.lower s = .ok (x, t)) :
    Labelled s.nextLabel t.nextLabel x.code ∧
      t.nextLabel = s.nextLabel + c.conjunctions := by
  induction c generalizing s x t with
  | or l r ihl ihr =>
    simp only [Cond.lower, Lower.bind_eq_ok_iff] at h
    obtain ⟨right, s₁, hr, left, s₂, hl, hx⟩ := h
    obtain ⟨hLr, hnr⟩ := ihr hr
    obtain ⟨hLl, hnl⟩ := ihl hl
    obtain ⟨⟨code, hcode, hs⟩, hn⟩ := Lowered.disjoin_straight hx
    rw [hcode, hn]
    refine ⟨(hLr.append hLl).append (hs.labelled _), ?_⟩
    simp only [Cond.conjunctions]
    omega
  | and l r ihl ihr =>
    simp only [Cond.lower, Lower.bind_eq_ok_iff] at h
    obtain ⟨right, s₁, hr, left, s₂, hl, hx⟩ := h
    obtain ⟨hLr, hnr⟩ := ihr hr
    obtain ⟨hLl, hnl⟩ := ihl hl
    obtain ⟨hLx, hn⟩ := Lowered.conjoin_labelled hx (hLr.append hLl)
    refine ⟨hLx, ?_⟩
    simp only [Cond.conjunctions]
    omega
  | not c ih =>
    simp only [Cond.lower, Lower.bind_eq_ok_iff] at h
    obtain ⟨y, u, hy, hx⟩ := h
    obtain ⟨rfl, rfl⟩ := Lowered.negate_ok hx
    obtain ⟨hLy, hn⟩ := ih hy
    rw [NameSupply.nextLabel_freshTemp]
    refine ⟨hLy.append (Straight.labelled ?_ _), hn⟩
    simp [Instr.GoesTo]
  | rel op l r =>
    obtain ⟨hs, hn⟩ := Relation.lower_straight h
    rw [hn]
    exact ⟨hs.labelled _, rfl⟩

/-! ### Statements -/

namespace Stmt

/-- The number of conjunctions in the condition of a statement. -/
def conjunctions : Stmt → ℕ
  | .ite c _ _ => c.conjunctions
  | .loop c _ => c.conjunctions
  | _ => 0

/-- The statement is a branch. -/
def isIte : Stmt → Bool
  | .ite _ _ _ => true
  | _ => false

/-- The statement is a loop. -/
def isLoop : Stmt → Bool
  | .loop _ _ => true
  | _ => false

/-- The number of labels of a switch: one for the end and one for each case. -/
def switchLabels : Stmt → ℕ
  | .switch _ cases _ => 1 + cases.length
  | _ => 0

/-- The number of labels that statements need by themselves: one for a conjunction, three for a
branch, two for a loop, and those of the switches. -/
def labelCount (parts : List Stmt) : ℕ :=
  (parts.map conjunctions).sum + 3 * parts.countP isIte + 2 * parts.countP isLoop +
    (parts.map switchLabels).sum

@[simp] theorem labelCount_nil : labelCount [] = 0 := rfl

theorem labelCount_append (l m : List Stmt) :
    labelCount (l ++ m) = labelCount l + labelCount m := by
  simp only [labelCount, List.map_append, List.sum_append, List.countP_append]
  ring

theorem labelCount_cons (st : Stmt) (l : List Stmt) :
    labelCount (st :: l) = st.conjunctions + (if st.isIte then 3 else 0) +
      (if st.isLoop then 2 else 0) + st.switchLabels + labelCount l := by
  simp only [labelCount, List.map_cons, List.sum_cons, List.countP_cons]
  split_ifs <;> ring

/-- Lowering a statement labels its code with what it draws, and draws `labelCount` labels. -/
def LabelsWell (st : Stmt) : Prop :=
  ∀ ⦃s code t⦄, st.lower s = .ok (code, t) →
    Labelled s.nextLabel t.nextLabel code ∧ t.nextLabel = s.nextLabel + labelCount st.parts

theorem lowerAll_labelled_of {l : List Stmt} (hl : ∀ st ∈ l, st.LabelsWell) {code : List Item}
    (h : lowerAll l s = .ok (code, t)) :
    Labelled s.nextLabel t.nextLabel code ∧
      t.nextLabel = s.nextLabel + labelCount (partsAll l) := by
  induction l generalizing s code with
  | nil =>
    obtain ⟨rfl, rfl⟩ := lowerAll_nil_ok h
    exact ⟨Labelled.nil _, rfl⟩
  | cons st l ih =>
    obtain ⟨hst, hl⟩ := List.forall_mem_cons.1 hl
    obtain ⟨first, u, rest, hfirst, hrest, rfl⟩ := lowerAll_cons_ok h
    obtain ⟨hLf, hnf⟩ := hst hfirst
    obtain ⟨hLr, hnr⟩ := ih hl hrest
    refine ⟨hLf.append hLr, ?_⟩
    rw [partsAll, labelCount_append]
    omega

end Stmt

namespace Case

theorem dispatch_jumps (selector : Operand) (dst : String) (first : ℕ) (cases : List Case) :
    labelsIn (dispatch selector dst first cases) = [] ∧
      GoesTo (Label.Between first (first + cases.length))
        (dispatch selector dst first cases) := by
  induction cases generalizing first with
  | nil => simp [dispatch]
  | cons c cases ih =>
    obtain ⟨hlabels, hjumps⟩ := ih (first + 1)
    constructor
    · simp [dispatch, hlabels]
    · simp only [dispatch, List.cons_append, List.nil_append, goesTo_instr, Instr.GoesTo,
        List.length_cons, true_and]
      refine ⟨⟨le_rfl, by simp⟩, hjumps.mono fun l hl => ?_⟩
      obtain ⟨hlo, hhi⟩ := hl
      constructor <;> omega

theorem lowerDispatch_jumps {selector : Operand} {first : ℕ} {cases : List Case}
    {code : List Item} (h : lowerDispatch selector first cases s = .ok (code, t)) :
    labelsIn code = [] ∧ GoesTo (Label.Between first (first + cases.length)) code ∧
      t.nextLabel = s.nextLabel := by
  cases cases with
  | nil =>
    obtain ⟨rfl, rfl⟩ := lowerDispatch_nil_ok h
    simp
  | cons c cases =>
    obtain ⟨rfl, rfl⟩ := lowerDispatch_cons_ok h
    obtain ⟨hlabels, hjumps⟩ := dispatch_jumps selector (s.freshTemp .int).1 first (c :: cases)
    exact ⟨hlabels, hjumps, rfl⟩

/-- Beside the labels of their bodies cases have the labels from `first` on, and beside those they
jump to the end of the switch. -/
theorem lowerAll_labelled_of {cases : List Case}
    (hcases : ∀ c ∈ cases, ∀ st ∈ c.body, st.LabelsWell) {endLabel : Label} {first : ℕ}
    {code : List Item} (h : lowerAll endLabel first cases s = .ok (code, t)) :
    (∀ l, (labelsIn code).count l =
      (if first ≤ l.index ∧ l.index < first + cases.length then 1 else 0) +
        if s.nextLabel ≤ l.index ∧ l.index < t.nextLabel then 1 else 0) ∧
    GoesTo (fun l => l = endLabel ∨ l.Between s.nextLabel t.nextLabel) code ∧
    t.nextLabel = s.nextLabel + Stmt.labelCount (partsAll cases) := by
  induction cases generalizing s first code with
  | nil =>
    obtain ⟨rfl, rfl⟩ := lowerAll_nil_ok h
    refine ⟨fun l => ?_, goesTo_nil _, rfl⟩
    simp only [labelsIn_nil, List.count_nil, List.length_nil]
    split_ifs <;> omega
  | cons c cases ih =>
    obtain ⟨number, body⟩ := c
    obtain ⟨hbody, hcases⟩ := List.forall_mem_cons.1 hcases
    obtain ⟨bodyCode, u, rest, hb, hrest, rfl⟩ := lowerAll_cons_ok h
    obtain ⟨hLb, hnb⟩ := Stmt.lowerAll_labelled_of (l := body) hbody hb
    obtain ⟨hcount, hjumps, hnr⟩ := ih hcases hrest
    refine ⟨fun l => ?_, ?_, ?_⟩
    · simp only [List.cons_append, List.nil_append, count_mark, labelsIn_append, labelsIn_instr,
        List.count_append, hLb.count, hcount, labelsIn_nil, List.count_nil, List.length_cons]
      split_ifs <;> omega
    · simp only [List.cons_append, List.nil_append, goesTo_mark, goesTo_append, goesTo_instr,
        Instr.GoesTo, true_or, goesTo_nil, and_true]
      refine ⟨hLb.jumps.mono fun l hl => Or.inr ⟨hl.1, ?_⟩, hjumps.mono fun l hl => ?_⟩
      · exact hl.2.trans_le (by omega)
      · exact hl.imp_right fun hl => ⟨le_trans (by omega) hl.1, hl.2⟩
    · rw [partsAll, Stmt.labelCount_append]
      omega

end Case

namespace Stmt

theorem labelsWell_ite {c : Cond} {yes no : Stmt} (hyes : yes.LabelsWell) (hno : no.LabelsWell) :
    (ite c yes no).LabelsWell := by
  intro s code t h
  obtain ⟨test, s₁, yesCode, s₂, noCode, hc, hy, hn, rfl⟩ := lower_ite_ok h
  obtain ⟨hLc, hnc⟩ := Cond.lower_labelled hc
  obtain ⟨hLy, hny⟩ := hyes hy
  obtain ⟨hLn, hnn⟩ := hno hn
  rw [NameSupply.nextLabel_freshLabels] at hLc hnc
  refine ⟨⟨by omega, fun l => ?_, ?_⟩, ?_⟩
  · -- three labels of its own, then those of the condition and of the branches
    simp only [List.append_assoc, List.cons_append, List.nil_append, labelsIn_append,
      labelsIn_instr, count_mark, List.count_append, hLc.count, hLy.count, hLn.count,
      labelsIn_nil, List.count_nil]
    split_ifs <;> omega
  · simp only [List.append_assoc, List.cons_append, List.nil_append, goesTo_append, goesTo_instr,
      goesTo_mark, goesTo_nil, Instr.GoesTo, and_true]
    refine ⟨hLc.jumps.mono fun l hl => ?_, ?_, hLy.jumps.mono fun l hl => ?_, ?_,
      hLn.jumps.mono fun l hl => ?_⟩
    all_goals simp only [Label.Between] at *; omega
  · rw [parts, labelCount_cons, labelCount_append]
    simp only [conjunctions, isIte, isLoop, switchLabels, if_true, Bool.false_eq_true, if_false]
    omega

theorem labelsWell_loop {c : Cond} {body : Stmt} (hbody : body.LabelsWell) :
    (loop c body).LabelsWell := by
  intro s code t h
  obtain ⟨test, s₁, bodyCode, hc, hb, rfl⟩ := lower_loop_ok h
  obtain ⟨hLc, hnc⟩ := Cond.lower_labelled hc
  obtain ⟨hLb, hnb⟩ := hbody hb
  rw [NameSupply.nextLabel_freshLabels] at hLc hnc
  refine ⟨⟨by omega, fun l => ?_, ?_⟩, ?_⟩
  · simp only [List.append_assoc, List.cons_append, List.nil_append, labelsIn_append,
      labelsIn_instr, count_mark, List.count_append, hLc.count, hLb.count, labelsIn_nil,
      List.count_nil]
    split_ifs <;> omega
  · simp only [List.append_assoc, List.cons_append, List.nil_append, goesTo_append, goesTo_instr,
      goesTo_mark, goesTo_nil, Instr.GoesTo, and_true]
    refine ⟨hLc.jumps.mono fun l hl => ?_, ?_, hLb.jumps.mono fun l hl => ?_, ?_⟩
    all_goals simp only [Label.Between] at *; omega
  · rw [parts, labelCount_cons]
    simp only [conjunctions, isIte, isLoop, switchLabels, if_true, Bool.false_eq_true, if_false]
    omega

theorem labelsWell_switch {e : Expr} {cases : List Case} {otherwise : List Stmt}
    (hcases : ∀ c ∈ cases, ∀ st ∈ c.body, st.LabelsWell)
    (hother : ∀ st ∈ otherwise, st.LabelsWell) : (switch e cases otherwise).LabelsWell := by
  intro s code t h
  obtain ⟨x, s₁, head, s₂, otherCode, s₃, caseCode, hx, -, -, hhead, ho, hca, rfl⟩ :=
    lower_switch_ok h
  obtain ⟨hLx, hnx⟩ : Labelled s.nextLabel s₁.nextLabel x.code ∧ _ :=
    ⟨Expr.lower_labelled hx, (Expr.lower_straight hx).2⟩
  obtain ⟨hlhead, hjhead, hnhead⟩ := Case.lowerDispatch_jumps hhead
  obtain ⟨hLo, hno⟩ := lowerAll_labelled_of hother ho
  obtain ⟨hcount, hjumps, hnca⟩ := Case.lowerAll_labelled_of hcases hca
  simp only [NameSupply.nextLabel_freshLabels, NameSupply.nextLabel_freshLabel] at hnhead
  refine ⟨⟨by omega, fun l => ?_, ?_⟩, ?_⟩
  · simp only [List.append_assoc, List.cons_append, List.nil_append, labelsIn_append,
      labelsIn_instr, count_mark, List.count_append, hLx.count, hlhead, hLo.count, hcount,
      labelsIn_nil, List.count_nil]
    split_ifs <;> omega
  · simp only [List.append_assoc, List.cons_append, List.nil_append, goesTo_append, goesTo_instr,
      goesTo_mark, goesTo_nil, Instr.GoesTo, and_true]
    refine ⟨hLx.jumps.mono fun l hl => ?_, hjhead.mono fun l hl => ?_,
      hLo.jumps.mono fun l hl => ?_, ?_, hjumps.mono fun l hl => ?_⟩
    case refine_5 =>
      rcases hl with rfl | hl
      all_goals simp only [Label.Between] at *; omega
    all_goals simp only [Label.Between] at *; omega
  · rw [parts, labelCount_cons, labelCount_append]
    simp only [conjunctions, isIte, isLoop, switchLabels, Bool.false_eq_true, if_false]
    omega

/-- The labels of the code of a statement are those that were drawn for it. -/
theorem labelsWell (st : Stmt) : st.LabelsWell := by
  induction st using Stmt.induction with
  | assign target e =>
    intro s code t h
    obtain ⟨x, ty, i, hx, -, hi, rfl⟩ := lower_assign_ok h
    obtain ⟨hs, hn⟩ := Expr.lower_straight hx
    have hi' : i.GoesTo fun _ => False := by
      revert hi
      unfold Value.store
      split <;> simp <;> rintro rfl <;> trivial
    rw [hn]
    exact ⟨Straight.labelled (by simp [hs, hi']) _, rfl⟩
  | input target =>
    intro s code t h
    obtain ⟨ty, -, rfl, rfl⟩ := lower_input_ok h
    exact ⟨Straight.labelled (by simp [Instr.GoesTo]) _, rfl⟩
  | output e =>
    intro s code t h
    obtain ⟨x, hx, rfl⟩ := lower_output_ok h
    obtain ⟨hs, hn⟩ := Expr.lower_straight hx
    rw [hn]
    exact ⟨Straight.labelled (by simp [hs, Instr.GoesTo]) _, rfl⟩
  | ite c yes no hyes hno => exact labelsWell_ite hyes hno
  | loop c body hbody => exact labelsWell_loop hbody
  | switch e cases otherwise hcases hother => exact labelsWell_switch hcases hother
  | leave => exact fun s code t h => absurd h not_lower_leave_ok
  | block body hbody =>
    intro s code t h
    obtain ⟨hL, hn⟩ := lowerAll_labelled_of hbody h
    refine ⟨hL, ?_⟩
    rw [hn, parts, labelCount_cons]
    simp [conjunctions, isIte, isLoop, switchLabels]

theorem lowerAll_labelled {l : List Stmt} {code : List Item} (h : lowerAll l s = .ok (code, t)) :
    Labelled s.nextLabel t.nextLabel code ∧
      t.nextLabel = s.nextLabel + labelCount (partsAll l) :=
  lowerAll_labelled_of (fun st _ => st.labelsWell) h

end Stmt

end QuadCode
