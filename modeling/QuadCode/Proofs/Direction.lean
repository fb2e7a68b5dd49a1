import QuadCode.Proofs.JumpSafety

/-!
# Directions of jumps

Loops jump back to their test, and nothing else jumps back. So without loops a
run comes to each line at most once, and it ends.

* `Turns address a code n`: code on the lines from `a` on has `n` jumps back, and
  no conditional jump is one of them. It adds up along `++` (`Turns.append`);
* `Stmt.turnsWell`: the code of a statement jumps back once for each loop in it,
  wherever it is placed;
* `Executable.Enclosed.exists_end`: where all jumps go ahead, a run ends within
  as many steps as there are lines.

The main statement is `only_loops_jump_back`.
-/

namespace QuadCode

open StateTransition

/-- The instruction on line `k` is an unconditional jump that does not go to a later line. -/
def Instr.jumpsBack (k : ℕ) : Instr ℕ → Bool
  | jump target => decide (target ≤ k)
  | _ => false

/-- The number of unconditional jumps that do not go to a later line. -/
def Executable.backJumps (x : Executable) : ℕ :=
  x.instrs.zipIdx.countP fun line => line.1.jumpsBack line.2

theorem Instr.jumpsBack_eq_false {k : ℕ} {i : Instr ℕ} (h : ∀ n, i.target? = some n → k < n) :
    i.jumpsBack k = false := by
  cases i with
  | jump target => simpa [jumpsBack] using h target rfl
  | _ => rfl

/-! ### Counting jumps back -/

/-- On the lines from `a` on the code has `n` jumps back. All other jumps go ahead, and so do the
conditional ones. -/
inductive Turns (address : Label → Option ℕ) : ℕ → List Item → ℕ → Prop where
  | nil (a : ℕ) : Turns address a [] 0
  | mark {a n : ℕ} {code : List Item} (l : Label) : Turns address a code n →
      Turns address a (.mark l :: code) n
  | ahead {a n : ℕ} {code : List Item} {i : Instr Label} :
      (∀ l, i.target? = some l → ∃ k, address l = some k ∧ a < k) →
      Turns address (a + 1) code n → Turns address a (.instr i :: code) n
  | back {a n k : ℕ} {code : List Item} {l : Label} : address l = some k → k ≤ a →
      Turns address (a + 1) code n → Turns address a (.instr (.jump l) :: code) (n + 1)

section Turns

variable {address : Label → Option ℕ} {a n m : ℕ} {c d : List Item}

theorem Turns.append (hc : Turns address a c n) (hd : Turns address (a + lineCount c) d m) :
    Turns address a (c ++ d) (n + m) := by
  induction hc with
  | nil a => simpa using hd
  | mark l _ ih => exact .mark l (ih hd)
  | ahead hi _ ih =>
    rw [lineCount_instr, ← Nat.add_assoc, Nat.add_right_comm] at hd
    exact .ahead hi (ih hd)
  | back hk hle _ ih =>
    rw [lineCount_instr, ← Nat.add_assoc, Nat.add_right_comm] at hd
    rw [Nat.add_right_comm]
    exact .back hk hle (ih hd)

/-- Code that jumps to nothing but lines behind it does not jump back. -/
theorem turns_of_goesTo
    (h : GoesTo (fun l => ∃ k, address l = some k ∧ a + lineCount c ≤ k) c) :
    Turns address a c 0 := by
  induction c generalizing a with
  | nil => exact .nil a
  | cons item c ih =>
    cases item with
    | mark l => exact .mark l (ih h)
    | instr i =>
      rw [lineCount_instr, goesTo_instr] at h
      obtain ⟨hi, hc⟩ := h
      refine .ahead (fun l hl => ?_) (ih (hc.mono fun l hl => ?_))
      · obtain ⟨k, hk, hle⟩ := hi.of_target hl
        exact ⟨k, hk, by omega⟩
      · obtain ⟨k, hk, hle⟩ := hl
        exact ⟨k, hk, by omega⟩

theorem turns_of_target {i : Instr Label} {l : Label} {k : ℕ} (hi : i.target? = some l)
    (hk : address l = some k) (hlt : a < k) : Turns address a [.instr i] 0 := by
  refine .ahead (fun l' hl' => ?_) (.nil _)
  obtain rfl := Option.some.inj (hi.symm.trans hl')
  exact ⟨k, hk, hlt⟩

/-- Code without labels of its own does not jump at all. -/
theorem Labelled.turns (h : Labelled n n c) (a : ℕ) : Turns address a c 0 :=
  turns_of_goesTo (h.jumps.mono fun _ hl => absurd (hl.1.trans_lt hl.2) (lt_irrefl n))

theorem Straight.turns (h : Straight c) (a : ℕ) : Turns address a c 0 := (h.labelled 0).turns a

/-- The lines that code becomes have the jumps that were counted. -/
theorem Turns.lines (h : Turns address a c n) {lines : List (Instr ℕ)}
    (hlines : List.Forall₂ (fun i j => i.mapTarget address = some j) (instrsIn c) lines) :
    (∀ k target cond, lines[k]? = some (.jumpIfZero target cond) → a + k < target) ∧
      (lines.zipIdx a).countP (fun line => line.1.jumpsBack line.2) = n := by
  induction h generalizing lines with
  | nil a =>
    obtain rfl := List.forall₂_nil_left_iff.1 hlines
    simp
  | mark l _ ih => exact ih hlines
  | @ahead a n code i hi _ ih =>
    obtain ⟨j, rest, hj, hrest, rfl⟩ := List.forall₂_cons_left_iff.1 hlines
    obtain ⟨hcond, hcount⟩ := ih hrest
    have hahead : ∀ k, j.target? = some k → a < k := by
      intro k hk
      rw [Instr.target?_of_mapTarget hj] at hk
      obtain ⟨l, hl, haddress⟩ := Option.bind_eq_some_iff.1 hk
      obtain ⟨k', hk', hlt⟩ := hi l hl
      obtain rfl := Option.some.inj (haddress.symm.trans hk')
      exact hlt
    constructor
    · intro k target cond hk
      cases k with
      | zero =>
        obtain rfl := Option.some.inj hk
        exact hahead target rfl
      | succ k =>
        have hlt := hcond k target cond hk
        omega
    · rw [List.zipIdx_cons, List.countP_cons, hcount, Instr.jumpsBack_eq_false hahead]
      rfl
  | @back a n k code l hk hle _ ih =>
    obtain ⟨j, rest, hj, hrest, rfl⟩ := List.forall₂_cons_left_iff.1 hlines
    obtain ⟨hcond, hcount⟩ := ih hrest
    obtain rfl : j = .jump k := by
      simpa [Instr.mapTarget, hk, eq_comm] using hj
    constructor
    · intro k' target cond hk'
      cases k' with
      | zero => cases hk'
      | succ k' =>
        have hlt := hcond k' target cond hk'
        omega
    · rw [List.zipIdx_cons, List.countP_cons, hcount]
      simp [Instr.jumpsBack, hle]

end Turns

/-! ### Lowered code -/

section Lowered

variable {lines : List (Instr ℕ)} {address : Label → Option ℕ} {a : ℕ} {s t : NameSupply}

/-- The jump of a conjunction goes over one comparison. -/
theorem Lowered.conjoin_turns {left right x : Lowered} (h : left.conjoin right s = .ok (x, t))
    (hx : Placed lines address a x.code)
    (hturns : Turns address a (right.code ++ left.code) 0) : Turns address a x.code 0 := by
  obtain ⟨-, rfl⟩ := Lowered.conjoin_ok h
  obtain ⟨-, -, -, -, hkeep, -⟩ := placed_append.1 hx
  refine hturns.append (turns_of_goesTo ?_)
  simp only [goesTo_instr, goesTo_mark, goesTo_nil, Instr.GoesTo, true_and, and_true]
  exact ⟨_, hkeep, le_rfl⟩

theorem Cond.lower_turns {c : Cond} {x : Lowered} (h : c.lower s = .ok (x, t))
    (hx : Placed lines address a x.code) : Turns address a x.code 0 := by
  induction c generalizing s x t a with
  | or l r ihl ihr =>
    simp only [Cond.lower, Lower.bind_eq_ok_iff] at h
    obtain ⟨right, s₁, hr, left, s₂, hl, hdisjoin⟩ := h
    obtain ⟨⟨code, hcode, hstraight⟩, -⟩ := Lowered.disjoin_straight hdisjoin
    rw [hcode, placed_append, placed_append] at hx
    obtain ⟨⟨hright, hleft⟩, -⟩ := hx
    rw [hcode]
    exact ((ihr hr hright).append (ihl hl hleft)).append (hstraight.turns _)
  | and l r ihl ihr =>
    simp only [Cond.lower, Lower.bind_eq_ok_iff] at h
    obtain ⟨right, s₁, hr, left, s₂, hl, hconjoin⟩ := h
    refine Lowered.conjoin_turns hconjoin hx ?_
    obtain ⟨-, rfl⟩ := Lowered.conjoin_ok hconjoin
    obtain ⟨hright, hleft⟩ := placed_append.1 (placed_append.1 hx).1
    exact (ihr hr hright).append (ihl hl hleft)
  | not c ih =>
    simp only [Cond.lower, Lower.bind_eq_ok_iff] at h
    obtain ⟨y, u, hy, hnegate⟩ := h
    obtain ⟨-, rfl⟩ := Lowered.negate_ok hnegate
    refine (ih hy (placed_append.1 hx).1).append (Straight.turns ?_ _)
    simp [Instr.GoesTo]
  | rel op l r => exact (Relation.lower_straight h).1.turns a

namespace Stmt

/-- Wherever the code of a statement is placed, it jumps back once for each loop in it. -/
def TurnsWell (lines : List (Instr ℕ)) (address : Label → Option ℕ) (st : Stmt) : Prop :=
  ∀ ⦃s code t a⦄, st.lower s = .ok (code, t) → Placed lines address a code →
    Turns address a code (st.parts.countP isLoop)

theorem lowerAll_turns_of {l : List Stmt} (hl : ∀ st ∈ l, st.TurnsWell lines address)
    {code : List Item} (h : lowerAll l s = .ok (code, t)) (hcode : Placed lines address a code) :
    Turns address a code ((partsAll l).countP isLoop) := by
  induction l generalizing s code a with
  | nil =>
    obtain ⟨rfl, -⟩ := lowerAll_nil_ok h
    exact .nil a
  | cons st l ih =>
    obtain ⟨hst, hl⟩ := List.forall_mem_cons.1 hl
    obtain ⟨first, u, rest, hfirst, hrest, rfl⟩ := lowerAll_cons_ok h
    obtain ⟨hplaced, hplaced'⟩ := placed_append.1 hcode
    rw [partsAll, List.countP_append]
    exact (hst hfirst hplaced).append (ih hl hrest hplaced')

end Stmt

namespace Case

/-- The labels of the cases stand for lines of their code. -/
theorem exists_address {endLabel : Label} {first : ℕ} {cases : List Case} {code : List Item}
    (h : lowerAll endLabel first cases s = .ok (code, t)) (hcode : Placed lines address a code)
    {l : Label} (hl : l.Between first (first + cases.length)) :
    ∃ k, address l = some k ∧ a ≤ k := by
  induction cases generalizing s first code a with
  | nil => exact absurd (hl.1.trans_lt hl.2) (lt_irrefl first)
  | cons c cases ih =>
    obtain ⟨number, body⟩ := c
    obtain ⟨bodyCode, u, rest, hbody, hrest, rfl⟩ := lowerAll_cons_ok h
    rw [List.append_assoc, List.append_assoc] at hcode
    by_cases hfirst : l.index = first
    · obtain ⟨index⟩ := l
      obtain rfl : index = first := hfirst
      exact ⟨a, hcode.1, le_rfl⟩
    · have hl' : l.Between (first + 1) (first + 1 + cases.length) := by
        obtain ⟨hlo, hhi⟩ := hl
        rw [List.length_cons] at hhi
        constructor <;> omega
      rw [← List.append_assoc, ← List.append_assoc, placed_append] at hcode
      obtain ⟨k, hk, hle⟩ := ih hrest hcode.2 hl'
      exact ⟨k, hk, (Nat.le_add_right a _).trans hle⟩

/-- The cases of a switch jump to its end, which is behind them. -/
theorem lowerAll_turns_of {cases : List Case}
    (hcases : ∀ c ∈ cases, ∀ st ∈ c.body, st.TurnsWell lines address) {endLabel : Label}
    {first e : ℕ} {code : List Item} (h : lowerAll endLabel first cases s = .ok (code, t))
    (hcode : Placed lines address a code) (hend : address endLabel = some e)
    (he : a + lineCount code ≤ e) :
    Turns address a code ((partsAll cases).countP Stmt.isLoop) := by
  induction cases generalizing s first code a with
  | nil =>
    obtain ⟨rfl, -⟩ := lowerAll_nil_ok h
    exact .nil a
  | cons c cases ih =>
    obtain ⟨number, body⟩ := c
    obtain ⟨hbody, hcases⟩ := List.forall_mem_cons.1 hcases
    obtain ⟨bodyCode, u, rest, hb, hrest, rfl⟩ := lowerAll_cons_ok h
    simp only [placed_append] at hcode
    obtain ⟨⟨⟨-, hplaced⟩, -⟩, hplaced'⟩ := hcode
    rw [lineCount_append] at he
    have hmark : Turns address a [.mark ⟨first⟩] 0 := .mark _ (.nil a)
    have hbodyTurns := Stmt.lowerAll_turns_of (l := body) hbody hb hplaced
    have hjump : Turns address (a + lineCount ([.mark ⟨first⟩] ++ bodyCode))
        [.instr (.jump endLabel)] 0 := by
      refine turns_of_target rfl hend ?_
      simp only [lineCount_append, lineCount_mark, lineCount_instr, lineCount_nil] at he ⊢
      omega
    have hrestTurns := ih hcases hrest hplaced' (by omega)
    rw [partsAll, List.countP_append]
    simpa using ((hmark.append hbodyTurns).append hjump).append hrestTurns

end Case

namespace Stmt

theorem turnsWell_ite {c : Cond} {yes no : Stmt} (hyes : yes.TurnsWell lines address)
    (hno : no.TurnsWell lines address) : (ite c yes no).TurnsWell lines address := by
  intro s code t a h hcode
  obtain ⟨test, s₁, yesCode, s₂, noCode, hc, hy, hn, rfl⟩ := lower_ite_ok h
  simp only [placed_append] at hcode
  obtain ⟨⟨⟨⟨⟨hpc, -⟩, hpy⟩, -, helse, -⟩, hpn⟩, hend, -⟩ := hcode
  have hbranch : Turns address (a + lineCount test.code)
      [.instr (.jumpIfZero ⟨s.nextLabel + 1⟩ test.operand), .mark ⟨s.nextLabel⟩] 0 := by
    refine (turns_of_target rfl helse ?_).append (.mark _ (.nil _))
    simp only [lineCount_append]
    omega
  have hjump : Turns address (a + lineCount (test.code ++
        [.instr (.jumpIfZero ⟨s.nextLabel + 1⟩ test.operand), .mark ⟨s.nextLabel⟩] ++ yesCode))
      [.instr (.jump ⟨s.nextLabel + 2⟩), .mark ⟨s.nextLabel + 1⟩] 0 := by
    refine (turns_of_target rfl hend ?_).append (.mark _ (.nil _))
    simp only [lineCount_append, lineCount_instr]
    omega
  have hturns := ((((Cond.lower_turns hc hpc).append hbranch).append (hyes hy hpy)).append
    hjump).append (hno hn hpn)
  rw [parts, List.countP_cons, List.countP_append]
  simpa [isLoop] using hturns.append (.mark ⟨s.nextLabel + 2⟩ (.nil _))

theorem turnsWell_loop {c : Cond} {body : Stmt} (hbody : body.TurnsWell lines address) :
    (loop c body).TurnsWell lines address := by
  intro s code t a h hcode
  obtain ⟨test, s₁, bodyCode, hc, hb, rfl⟩ := lower_loop_ok h
  simp only [placed_append] at hcode
  obtain ⟨⟨⟨⟨⟨htest, -⟩, hpc⟩, -⟩, hpb⟩, -, hend, -⟩ := hcode
  have hmark : Turns address a [.mark ⟨s.nextLabel⟩] 0 := .mark _ (.nil a)
  have hbranch : Turns address (a + lineCount ([.mark ⟨s.nextLabel⟩] ++ test.code))
      [.instr (.jumpIfZero ⟨s.nextLabel + 1⟩ test.operand)] 0 := by
    refine turns_of_target rfl hend ?_
    simp only [lineCount_append]
    omega
  -- the only jump to a label whose marker comes before it
  have hback : Turns address (a + lineCount ([.mark ⟨s.nextLabel⟩] ++ test.code ++
        [.instr (.jumpIfZero ⟨s.nextLabel + 1⟩ test.operand)] ++ bodyCode))
      [.instr (.jump ⟨s.nextLabel⟩), .mark ⟨s.nextLabel + 1⟩] 1 :=
    .back htest (Nat.le_add_right a _) (.mark _ (.nil _))
  have hturns := (((hmark.append (Cond.lower_turns hc hpc)).append hbranch).append
    (hbody hb hpb)).append hback
  rw [parts, List.countP_cons]
  simpa [isLoop] using hturns

theorem turnsWell_switch {e : Expr} {cases : List Case} {otherwise : List Stmt}
    (hcases : ∀ c ∈ cases, ∀ st ∈ c.body, st.TurnsWell lines address)
    (hother : ∀ st ∈ otherwise, st.TurnsWell lines address) :
    (switch e cases otherwise).TurnsWell lines address := by
  intro s code t a h hcode
  obtain ⟨x, s₁, head, s₂, otherCode, s₃, caseCode, hx, -, -, hhead, ho, hca, rfl⟩ :=
    lower_switch_ok h
  simp only [placed_append] at hcode
  obtain ⟨⟨⟨⟨⟨-, -⟩, hpo⟩, -⟩, hpca⟩, hend, -⟩ := hcode
  have hdispatch : Turns address (a + lineCount x.code) head 0 := by
    refine turns_of_goesTo ((Case.lowerDispatch_jumps hhead).2.1.mono fun l hl => ?_)
    obtain ⟨k, hk, hle⟩ := Case.exists_address hca hpca hl
    simp only [lineCount_append] at hle
    exact ⟨k, hk, by omega⟩
  have hjump : Turns address (a + lineCount (x.code ++ head ++ otherCode))
      [.instr (.jump ⟨s₁.nextLabel⟩)] 0 := by
    refine turns_of_target rfl hend ?_
    simp only [lineCount_append, lineCount_instr]
    omega
  have hcaseTurns := Case.lowerAll_turns_of hcases hca hpca hend (by
    rw [lineCount_append _ caseCode, Nat.add_assoc])
  have hturns := (((((Expr.lower_straight hx).1.turns a).append hdispatch).append
    (lowerAll_turns_of hother ho hpo)).append hjump).append hcaseTurns
  rw [parts, List.countP_cons, List.countP_append]
  simpa [isLoop] using hturns.append (.mark ⟨s₁.nextLabel⟩ (.nil _))

theorem turnsWell_of_labelCount {st : Stmt} (hzero : labelCount st.parts = 0) :
    st.TurnsWell lines address := by
  intro s code t a h _
  obtain ⟨hL, hn⟩ := st.labelsWell h
  rw [hn, hzero, Nat.add_zero] at hL
  have hloops : st.parts.countP isLoop = 0 := by
    unfold labelCount at hzero
    omega
  rw [hloops]
  exact hL.turns a

theorem turnsWell (st : Stmt) : st.TurnsWell lines address := by
  induction st using Stmt.induction with
  | assign target e => exact turnsWell_of_labelCount rfl
  | input target => exact turnsWell_of_labelCount rfl
  | output e => exact turnsWell_of_labelCount rfl
  | ite c yes no hyes hno => exact turnsWell_ite hyes hno
  | loop c body hbody => exact turnsWell_loop hbody
  | switch e cases otherwise hcases hother => exact turnsWell_switch hcases hother
  | leave => exact fun s code t a h => absurd h not_lower_leave_ok
  | block body hbody =>
    intro s code t a h hcode
    rw [parts, List.countP_cons]
    simpa [isLoop] using lowerAll_turns_of hbody h hcode

end Stmt

end Lowered

/-- The number of loops in a program. -/
def Program.loopCount (p : Program) : ℕ := (Stmt.partsAll p.body).countP Stmt.isLoop

theorem Program.turns_of_link {p : Program} {f : Fragment} {signature : String} {x : Executable}
    (hf : p.lower = .ok f) (hx : f.link signature = .ok x) :
    Turns (fun l => l.addressIn? f.items) 0 f.items p.loopCount := by
  obtain ⟨t, ht⟩ := lower_ok hf
  obtain ⟨scope, -, hbody⟩ := lowerItems_ok ht
  exact Stmt.lowerAll_turns_of (fun st _ => st.turnsWell) hbody (Fragment.placed_of_link hx)

/-! ### Runs that go ahead -/

/-- Every jump goes to a later line. -/
def Executable.GoesAhead (x : Executable) : Prop :=
  ∀ (k : ℕ) (i : Instr ℕ), x.instrs[k]? = some i → ∀ n, i.target? = some n → k < n

theorem Executable.goesAhead_of_backJumps {x : Executable}
    (hcond : ∀ (k target : ℕ) (cond : Operand),
      x.instrs[k]? = some (.jumpIfZero target cond) → k < target)
    (hback : x.backJumps = 0) : x.GoesAhead := by
  intro k i hi n hn
  cases i with
  | jumpIfZero target cond =>
    obtain rfl := Option.some.inj hn
    exact hcond k target cond hi
  | jump target =>
    obtain rfl := Option.some.inj hn
    have hmem : (Instr.jump target, k) ∈ x.instrs.zipIdx := List.mem_zipIdx_iff_getElem?.2 hi
    simpa [Instr.jumpsBack] using List.countP_eq_zero.1 hback _ hmem
  | _ => cases hn

theorem Executable.GoesAhead.line_lt_of_step {x : Executable} (h : x.GoesAhead) {N : Numerics}
    {c d : Config} (hstep : c.step N x.instrs = some d) : c.line < d.line := by
  obtain ⟨i, hi, ⟨-, hline⟩ | hexec⟩ := Config.step_eq_some_iff.1 hstep
  · omega
  · rcases Instr.control_of_exec hexec with ⟨hs, -⟩ | ⟨l, hl, htarget⟩ | ⟨hs, -⟩
    · cases hs
    · cases hl
      exact h _ i hi _ htarget
    · cases hs

/-- Without jumps back the lines that are left bound the steps that are left. -/
theorem Executable.Enclosed.exists_end {x : Executable} (h : x.Enclosed) (hahead : x.GoesAhead)
    (N : Numerics) (c : Config) (hc : c.line < x.instrs.length) :
    ∃ (d : Config) (run : EvalsTo (Config.step N x.instrs) c (some d)),
      c.line + run.steps < x.instrs.length ∧ d.step N x.instrs = none := by
  induction hn : x.instrs.length - c.line using Nat.strong_induction_on generalizing c with
  | _ n ih =>
    subst hn
    cases hstep : c.step N x.instrs with
    | none => exact ⟨c, EvalsTo.refl _ c, hc, hstep⟩
    | some c' =>
      have hlt := hahead.line_lt_of_step hstep
      obtain ⟨d, run, hsteps, hd⟩ := ih _ (by omega) c' (h.line_lt_of_step hstep) rfl
      refine ⟨d, EvalsTo.trans _ c c' (some d) ⟨1, hstep⟩ run, ?_, hd⟩
      show c.line + (run.steps + 1) < x.instrs.length
      omega

/-- **Only loops jump back.** Every conditional jump of a finished program goes to a later line, and
it has exactly as many jumps that do not as its source has loops. So every run of a program without
loops ends, at a halt or stuck, after fewer steps than there are lines. -/
theorem only_loops_jump_back {p : Program} {o : Options} {x : Executable} (h : p.build o = .ok x) :
    (∀ (k target : ℕ) (cond : Operand),
      x.instrs[k]? = some (.jumpIfZero target cond) → k < target) ∧
    x.backJumps = p.loopCount ∧
    (p.loopCount = 0 → ∀ (N : Numerics) (w : World),
      ∃ (d : Config) (run : EvalsTo (Config.step N x.instrs) ⟨0, w⟩ (some d)),
        run.steps < x.instrs.length ∧ (d.Halted x.instrs ∨ d.Stuck N x.instrs)) := by
  obtain ⟨f, hf, hx⟩ := Program.build_ok h
  obtain ⟨-, -, hlines⟩ := Fragment.link_ok_iff.1 hx
  -- the halt behind the code is no jump
  have hturns : Turns (fun l => l.addressIn? f.items) 0 (f.items ++ [.instr .halt]) p.loopCount :=
    (Program.turns_of_link hf hx).append (Turns.ahead (by simp [Instr.target?]) (.nil _))
  have hall : instrsIn (f.items ++ [.instr .halt]) = f.lines := by simp [Fragment.lines]; rfl
  obtain ⟨hcond, hback⟩ := hturns.lines (hall ▸ hlines)
  simp only [Nat.zero_add] at hcond
  refine ⟨hcond, hback, fun hzero N w => ?_⟩
  have henclosed := Fragment.enclosed_of_link hx (Program.labelled hf).jumps
  have hahead := Executable.goesAhead_of_backJumps hcond (hback.trans hzero)
  obtain ⟨d, run, hsteps, hd⟩ := henclosed.exists_end hahead N ⟨0, w⟩
    (by rw [Fragment.length_of_link hx]; exact Nat.succ_pos _)
  rw [Nat.zero_add] at hsteps
  refine ⟨d, run, hsteps, ?_⟩
  by_cases hhalt : d.Halted x.instrs
  · exact Or.inl hhalt
  · exact Or.inr ⟨hd, hhalt⟩

/-- A program without loops, with branches and cases that are empty. -/
def Program.branches : Program where
  declarations := [⟨["n"], .int⟩]
  body := [
    .input "n",
    .ite (.and (.rel .le (.lit (.int 0)) (.var "n")) (.rel .lt (.var "n") (.lit (.int 3))))
      (.switch (.var "n") [⟨0, []⟩, ⟨1, [.output (.var "n")]⟩, ⟨2, []⟩] [])
      (.block [])]

theorem only_loops_jump_back_sample :
    (∃ x, Program.sample.build = .ok x ∧ x.backJumps = 1) ∧
    ∃ x, Program.branches.build = .ok x ∧ x.backJumps = 0 ∧ ∀ (N : Numerics) (w : World),
      ∃ (d : Config) (run : EvalsTo (Config.step N x.instrs) ⟨0, w⟩ (some d)),
        run.steps < x.instrs.length ∧ (d.Halted x.instrs ∨ d.Stuck N x.instrs) := by
  obtain ⟨x, hx⟩ := exists_ok_of_isOk (r := Program.sample.build) (by decide +kernel)
  obtain ⟨y, hy⟩ := exists_ok_of_isOk (r := Program.branches.build) (by decide +kernel)
  have hloops : Program.sample.loopCount = 1 := by decide +kernel
  have hnone : Program.branches.loopCount = 0 := by decide +kernel
  obtain ⟨-, hback, -⟩ := only_loops_jump_back hx
  obtain ⟨-, hback', hruns⟩ := only_loops_jump_back hy
  exact ⟨⟨x, hx, hback.trans hloops⟩, y, hy, hback'.trans hnone, hruns hnone⟩

end QuadCode
