import QuadCode.Proofs.Evaluation

/-!
# Statements on the machine

A program has statements left to run, and the machine is at a line of the code.
The two belong together if the code of the statements follows from that line on,
possibly behind jumps, and ends in a halt.

* `Installation.Follows` is this relation;
* `Installation.Advances` says that the machine does for the first statement what
  the program does: it gets to a line where the statements follow that are left
  then, or it sticks as the program does;
* `Stmt.advances` proves it, constructor by constructor. There is one exception,
  `Source.overlooked?`: a selector without a value that is never read.
-/

namespace QuadCode

open StateTransition

namespace World.SameOn

variable {G : Scope} {w u : World}

theorem set (h : w.SameOn G u) (name : String) (v : Literal) :
    (w.set name v).SameOn G (u.set name v) := by
  refine ⟨fun y hy => ?_, h.input, h.output⟩
  by_cases hname : y = name
  · simp [hname]
  · simp [hname, h.store hy]

theorem print (h : w.SameOn G u) (v : Literal) : (w.print v).SameOn G (u.print v) :=
  ⟨h.store, h.input, by simp [h.output]⟩

/-- Worlds with the same input read alike. -/
theorem read (h : w.SameOn G u) (N : Numerics) (ty : Scalar) (name : String) :
    (∃ w' u', w.read N ty name = some w' ∧ u.read N ty name = some u' ∧ w'.SameOn G u') ∨
      w.read N ty name = none ∧ u.read N ty name = none := by
  unfold World.read
  rw [h.input]
  cases w.input with
  | nil => exact Or.inr ⟨rfl, rfl⟩
  | cons text rest =>
    cases hv : N.read ty text with
    | none => exact Or.inr ⟨by simp [hv], by simp [hv]⟩
    | some v =>
      have hset : SameOn G { w with input := rest } { u with input := rest } :=
        ⟨h.store, rfl, h.output⟩
      exact Or.inl ⟨_, _, by simp [hv], by simp [hv], hset.set name v⟩

end World.SameOn

/-! ### Code that follows -/

namespace Installation

variable (I : Installation) (D : Scope)

/-- The code of the statement stands on the lines from `a` up to `b`, and the statement mentions
declared variables only. -/
def Holds (st : Stmt) (a b : ℕ) : Prop :=
  ∃ s t code, st.lower s = .ok (code, t) ∧ I.Placed a code ∧ b = a + lineCount code ∧
    D ≤ s.scope ∧ ∀ y ∈ st.names, D.find? y ≠ none

/-- The code of the statements follows from a line on, and then a halt. -/
inductive Follows : List Stmt → ℕ → Prop where
  | done {a : ℕ} : I.lines[a]? = some .halt → Follows [] a
  | stmt {st : Stmt} {rest : List Stmt} {a b : ℕ} :
    I.Holds D st a b → Follows rest b → Follows (st :: rest) a
  | jump {rest : List Stmt} {a b : ℕ} :
    I.lines[a]? = some (.jump b) → Follows rest b → Follows rest a

variable {I D} {a : ℕ} {rest : List Stmt}

theorem step_of_jump {b : ℕ} (h : I.lines[a]? = some (.jump b)) (w : World) :
    I.step ⟨a, w⟩ = some ⟨b, w⟩ := step_of_goto h rfl

theorem Follows.exists_halt (h : I.Follows D [] a) (w : World) :
    ∃ b, Reaches I.step ⟨a, w⟩ ⟨b, w⟩ ∧ I.lines[b]? = some .halt := by
  generalize hnil : ([] : List Stmt) = l at h
  induction h with
  | done hhalt => exact ⟨_, Relation.ReflTransGen.refl, hhalt⟩
  | stmt _ _ _ => cases hnil
  | jump hline _ ih =>
    obtain ⟨b, hb, hhalt⟩ := ih hnil
    exact ⟨b, Relation.ReflTransGen.head (step_of_jump hline w) hb, hhalt⟩

theorem Follows.exists_holds {st : Stmt} (h : I.Follows D (st :: rest) a) (w : World) :
    ∃ b c, Reaches I.step ⟨a, w⟩ ⟨b, w⟩ ∧ I.Holds D st b c ∧ I.Follows D rest c := by
  generalize hcons : st :: rest = l at h
  induction h with
  | done _ => cases hcons
  | stmt hst hrest _ =>
    cases hcons
    exact ⟨_, _, Relation.ReflTransGen.refl, hst, hrest⟩
  | jump hline _ ih =>
    -- what is left does not change over a jump
    obtain ⟨b, c, hb, hst, hrest⟩ := ih hcons
    exact ⟨b, c, Relation.ReflTransGen.head (step_of_jump hline w) hb, hst, hrest⟩

theorem Follows.of_lowerAll {l : List Stmt} {s t : NameSupply} {code : List Item}
    (h : Stmt.lowerAll l s = .ok (code, t)) (hp : I.Placed a code) (hD : D ≤ s.scope)
    (hn : ∀ y ∈ Stmt.namesAll l, D.find? y ≠ none)
    (hrest : I.Follows D rest (a + lineCount code)) : I.Follows D (l ++ rest) a := by
  induction l generalizing s code a with
  | nil =>
    obtain ⟨rfl, rfl⟩ := Stmt.lowerAll_nil_ok h
    exact hrest
  | cons st l ih =>
    obtain ⟨first, u, last, hfirst, hlast, rfl⟩ := Stmt.lowerAll_cons_ok h
    obtain ⟨hpfirst, hplast⟩ := placed_append.1 hp
    rw [Stmt.namesAll_cons] at hn
    obtain ⟨hnst, hnl⟩ := List.forall_mem_append.1 hn
    rw [lineCount_append, ← add_assoc] at hrest
    have hle := NameSupply.scope_mono (st.adds_lower hfirst)
    refine .stmt ⟨s, u, first, hfirst, hpfirst, rfl, hD, hnst⟩ ?_
    exact ih hlast hplast (hD.trans hle) hnl hrest

/-- A case has a label, and behind it its body follows. -/
theorem Follows.of_case {cases : List Case} {endLabel : Label} {first e : ℕ} {s t : NameSupply}
    {code : List Item} (h : Case.lowerAll endLabel first cases s = .ok (code, t))
    (hp : I.Placed a code) (hD : D ≤ s.scope)
    (hn : ∀ y ∈ Case.namesAll cases, D.find? y ≠ none) (hend : I.address endLabel = some e)
    (hrest : I.Follows D rest e) {k : ℕ} {c : Case} (hk : cases[k]? = some c) :
    ∃ b, I.address ⟨first + k⟩ = some b ∧ I.Follows D (c.body ++ rest) b := by
  induction cases generalizing s code a first k with
  | nil => simp at hk
  | cons d cases ih =>
    obtain ⟨number, body⟩ := d
    obtain ⟨bodyCode, u, last, hbody, hlast, rfl⟩ := Case.lowerAll_cons_ok h
    simp only [List.cons_append, List.nil_append, placed_mark, placed_append, placed_instr,
      placed_nil, and_true] at hp
    obtain ⟨hmark, ⟨hpbody, hjump⟩, hplast⟩ := hp
    have hline := line_of_jump hjump hend
    rw [Case.namesAll_cons] at hn
    obtain ⟨hnbody, hncases⟩ := List.forall_mem_append.1 hn
    have hle := NameSupply.scope_mono (Stmt.adds_lowerAll body hbody)
    cases k with
    | zero =>
      obtain rfl := Option.some.inj hk
      exact ⟨a, hmark, .of_lowerAll hbody hpbody hD hnbody (.jump hline hrest)⟩
    | succ k =>
      rw [show first + (k + 1) = first + 1 + k by omega]
      exact ih hlast hplast (hD.trans hle) hncases hk

end Installation

/-! ### The first statement -/

/-- The number of statements that are left, counted with all statements inside them. -/
def Source.size (a : Source) : ℕ := (Stmt.partsAll a.rest).length

/-- The machine does for the first statement what the program does. It may do so without a step if
the statements that are left get fewer. -/
def Installation.Advances (I : Installation) (D : Scope) (st : Stmt) (rest : List Stmt) (w : World)
    (a : ℕ) (u : World) : Prop :=
  (∃ next b v, Source.step I.numerics D.find? ⟨st :: rest, w⟩ = some next ∧
      I.Follows D next.rest b ∧ next.world.SameOn D v ∧
      (Reaches₁ I.step ⟨a, u⟩ ⟨b, v⟩ ∨
        Reaches I.step ⟨a, u⟩ ⟨b, v⟩ ∧ next.size < Source.size ⟨st :: rest, w⟩)) ∨
    Source.step I.numerics D.find? ⟨st :: rest, w⟩ = none ∧ I.Sticks D a u

variable {I : Installation} {D : Scope} {st : Stmt} {rest : List Stmt} {a b : ℕ} {w u : World}

/-- The first statement ends in one instruction behind code that has run. -/
theorem Installation.Runs.advances {α : Type} {r : Option α} {f g : α → World} {i : Instr ℕ}
    {v : World} (hrun : I.Runs D a b u v) (hline : I.lines[b]? = some i)
    (hexec : i.exec I.numerics v = r.map fun x => (.next, g x))
    (hstep : Source.step I.numerics D.find? ⟨st :: rest, w⟩ = r.map fun x => ⟨rest, f x⟩)
    (hsame : ∀ x, (f x).SameOn D (g x)) (hrest : I.Follows D rest (b + 1)) :
    I.Advances D st rest w a u := by
  cases r with
  | none => exact Or.inr ⟨hstep, hrun.sticks (sticks_of_exec hline hexec)⟩
  | some x =>
    have hreach := Relation.TransGen.tail' hrun.reaches (step_of_next hline hexec)
    exact Or.inl ⟨⟨rest, f x⟩, b + 1, g x, hstep, hrest, hsame x, Or.inl hreach⟩

/-- The first statement selects what is left by a condition, and the code by a jump. -/
theorem Cond.advances {c : Cond} {test : Lowered} {s t : NameSupply} {next : Bool → List Stmt}
    (hc : c.lower s = .ok (test, t)) (hp : I.Placed a test.code) (hD : D ≤ s.scope)
    (hn : ∀ y ∈ c.names, D.find? y ≠ none)
    (hline : I.lines[a + lineCount test.code]? = some (.jumpIfZero b test.operand))
    (hstep : Source.step I.numerics D.find? ⟨st :: rest, w⟩ =
      (c.eval I.numerics w.store).map fun p => ⟨next p, w⟩)
    (hyes : I.Follows D (next true) (a + lineCount test.code + 1))
    (hno : I.Follows D (next false) b) (hsame : w.SameOn D u) (hfits : u.Fits D) :
    I.Advances D st rest w a u := by
  rw [← hsame.eval_cond hn] at hstep
  rcases Cond.goes hc hp hD hfits hn with
    ⟨v, hrun, p, hp, hv⟩ | ⟨hnone, hsticks⟩
  · have hrun : I.Runs D a (a + lineCount test.code) u v := hrun.mono hD
    have hreach := Relation.TransGen.tail' hrun.reaches (Installation.step_of_jumpIfZero hline hv)
    rw [hp] at hstep
    refine Or.inl ⟨⟨next p, w⟩, _, v, hstep, ?_, hsame.trans hrun.same, Or.inl hreach⟩
    cases p with
    | true => exact hyes
    | false => exact hno
  · rw [hnone] at hstep
    exact Or.inr ⟨hstep, Installation.Sticks.mono hsticks hD⟩

/-- A store instruction writes what it fetches. -/
theorem Value.exec_of_store {v : Value} {target : String} {ty : Scalar} {i : Instr Label}
    {j : Instr ℕ} {f : Label → Option ℕ} {N : Numerics} (hi : v.store target ty = .ok i)
    (hj : i.mapTarget f = some j) :
    j.exec N w = (w.fetch N ty v.operand).map fun r => (.next, w.set target r) := by
  obtain ⟨o, source⟩ := v
  cases source <;> cases ty <;> simp only [Value.store, Except.ok.injEq, reduceCtorEq] at hi
  all_goals
    subst hi
    obtain rfl := Option.some.inj hj
    simp [Instr.exec, Option.map_eq_bind]

/-- A value that can be stored is converted as an assignment converts it. -/
theorem Value.assign_eq_convert {v : Value} {target : String} {ty : Scalar} {i : Instr Label}
    {N : Numerics} (hi : v.store target ty = .ok i) {r : Literal} (hr : r.ty = v.ty) :
    N.assign ty r = N.convert ty r := by
  obtain ⟨o, source⟩ := v
  cases r <;> cases source <;> cases ty <;> simp_all [Value.store, Numerics.assign, Literal.ty]

namespace Stmt

theorem advances_assign {target : String} {e : Expr} (hst : I.Holds D (.assign target e) a b)
    (hrest : I.Follows D rest b) (hsame : w.SameOn D u) (hfits : u.Fits D) :
    I.Advances D (.assign target e) rest w a u := by
  obtain ⟨s, t, code, h, hp, rfl, hD, hn⟩ := hst
  obtain ⟨x, ty, i, hx, hty, hi, rfl⟩ := lower_assign_ok h
  obtain ⟨hpx, ⟨j, hj, hline⟩, -⟩ := placed_append.1 hp
  rw [lineCount_append, ← add_assoc] at hrest
  rw [names_assign] at hn
  obtain ⟨hntarget, hne⟩ := List.forall_mem_cons.1 hn
  have hle := NameSupply.scope_mono (e.adds_lower hx)
  have htarget : D.find? target = some ty := Scope.find?_of_le (hD.trans hle) hntarget hty
  have hstep : Source.step I.numerics D.find? ⟨.assign target e :: rest, w⟩ =
      ((e.eval I.numerics u.store).bind (I.numerics.assign ty)).map
        fun v => ⟨rest, w.set target v⟩ := by
    simp [Source.step, htarget, hsame.eval_expr hne, Option.map_eq_bind, Option.bind_assoc]
  rcases e.goes hx hpx hD hfits hne with ⟨v, hrun, hv, -⟩ | ⟨hnone, hsticks⟩
  · -- the type of the value is known, so storing it converts it as the assignment does
    have hassign : (e.eval I.numerics u.store).bind (I.numerics.assign ty) =
        v.fetch I.numerics ty x.operand := by
      rw [World.fetch, hv]
      cases hr : e.eval I.numerics u.store with
      | none => rfl
      | some r => exact Value.assign_eq_convert hi (Expr.ty_of_eval hfits hne hD hx hr)
    rw [hassign] at hstep
    have hrun := hrun.mono hD
    exact hrun.advances hline (Value.exec_of_store hi hj) hstep
      (fun r => (hsame.trans hrun.same).set target r) hrest
  · rw [hnone] at hstep
    exact Or.inr ⟨hstep, hsticks.mono hD⟩

theorem advances_input {target : String} (hst : I.Holds D (.input target) a b)
    (hrest : I.Follows D rest b) (hsame : w.SameOn D u) :
    I.Advances D (.input target) rest w a u := by
  obtain ⟨s, t, code, h, hp, rfl, hD, hn⟩ := hst
  obtain ⟨ty, hty, rfl, rfl⟩ := lower_input_ok h
  obtain ⟨⟨j, hj, hline⟩, -⟩ := hp
  obtain rfl := Option.some.inj hj
  have htarget : D.find? target = some ty := Scope.find?_of_le hD (hn target (by simp)) hty
  have hstep : Source.step I.numerics D.find? ⟨.input target :: rest, w⟩ =
      (w.read I.numerics ty target).map fun w' => ⟨rest, w'⟩ := by
    simp [Source.step, htarget, Option.map_eq_bind]
  have hexec : (Instr.read ty target : Instr ℕ).exec I.numerics u =
      (u.read I.numerics ty target).map fun u' => (.next, u') := by
    simp [Instr.exec, Option.map_eq_bind]
  rcases hsame.read I.numerics ty target with ⟨w', u', hw', hu', hsame'⟩ | ⟨hw, hu⟩
  · rw [hw'] at hstep
    rw [hu'] at hexec
    exact Or.inl ⟨_, _, u', hstep, hrest, hsame',
      Or.inl (Relation.TransGen.single (Installation.step_of_next hline hexec))⟩
  · rw [hw] at hstep
    rw [hu] at hexec
    exact Or.inr ⟨hstep, Installation.sticks_of_exec hline hexec⟩

theorem advances_output {e : Expr} (hst : I.Holds D (.output e) a b)
    (hrest : I.Follows D rest b) (hsame : w.SameOn D u) (hfits : u.Fits D) :
    I.Advances D (.output e) rest w a u := by
  obtain ⟨s, t, code, h, hp, rfl, hD, hn⟩ := hst
  obtain ⟨x, hx, rfl⟩ := lower_output_ok h
  obtain ⟨hpx, ⟨j, hj, hline⟩, -⟩ := placed_append.1 hp
  obtain rfl := Option.some.inj hj
  rw [lineCount_append, ← add_assoc] at hrest
  rw [names_output] at hn
  have hstep : Source.step I.numerics D.find? ⟨.output e :: rest, w⟩ =
      (e.eval I.numerics u.store).map fun v => ⟨rest, w.print v⟩ := by
    simp [Source.step, hsame.eval_expr hn, Option.map_eq_bind]
  rcases e.goes hx hpx hD hfits hn with ⟨v, hrun, hv, -⟩ | ⟨hnone, hsticks⟩
  · have hfetch : v.fetch I.numerics x.ty x.operand = e.eval I.numerics u.store := by
      cases hr : v.value x.operand with
      | none => rw [World.fetch, ← hv, hr, Option.bind_none]
      | some r =>
        have hty := Expr.ty_of_eval hfits hn hD hx (hv.symm.trans hr)
        rw [World.fetch_of_value hr hty, ← hv, hr]
    have hexec : (Instr.print x.ty x.operand : Instr ℕ).exec I.numerics v =
        (e.eval I.numerics u.store).map fun r => (.next, v.print r) := by
      simp [Instr.exec, hfetch, Option.map_eq_bind]
    have hrun := hrun.mono hD
    exact hrun.advances hline hexec hstep (fun r => (hsame.trans hrun.same).print r) hrest
  · rw [hnone] at hstep
    exact Or.inr ⟨hstep, hsticks.mono hD⟩

/-- The branch that is not taken is jumped over. -/
theorem advances_ite {c : Cond} {yes no : Stmt} (hst : I.Holds D (.ite c yes no) a b)
    (hrest : I.Follows D rest b) (hsame : w.SameOn D u) (hfits : u.Fits D) :
    I.Advances D (.ite c yes no) rest w a u := by
  obtain ⟨s, t, code, h, hp, rfl, hD, hn⟩ := hst
  obtain ⟨test, s₁, yesCode, s₂, noCode, hc, hyes, hno, rfl⟩ := lower_ite_ok h
  simp only [List.append_assoc, List.cons_append, List.nil_append, placed_append, placed_instr,
    placed_mark, placed_nil, and_true] at hp
  obtain ⟨hptest, hjump₁, -, hpyes, hjump₂, helse, hpno, hend⟩ := hp
  rw [names_ite] at hn
  obtain ⟨hnc, hn⟩ := List.forall_mem_append.1 hn
  obtain ⟨hnyes, hnno⟩ := List.forall_mem_append.1 hn
  have hle₀ := NameSupply.scope_mono (s.le_freshLabels 3)
  have hle₁ := hle₀.trans (NameSupply.scope_mono (c.adds_lower hc))
  have hle₂ := NameSupply.scope_mono (yes.adds_lower hyes)
  have hbehind : I.Follows D rest (a + lineCount test.code + 1 + lineCount yesCode + 1 +
      lineCount noCode) := by
    simpa [lineCount_append, add_assoc, add_comm, add_left_comm] using hrest
  have hstep : Source.step I.numerics D.find? ⟨.ite c yes no :: rest, w⟩ =
      (c.eval I.numerics w.store).map fun p => ⟨(if p then yes else no) :: rest, w⟩ := by
    simp [Source.step, Option.map_eq_bind]
  refine Cond.advances hc hptest (hD.trans hle₀) hnc
    (Installation.line_of_jumpIfZero hjump₁ helse) hstep ?_ ?_ hsame hfits
  · exact .stmt ⟨s₁, s₂, yesCode, hyes, hpyes, rfl, hD.trans hle₁, hnyes⟩
      (.jump (Installation.line_of_jump hjump₂ hend) hbehind)
  · exact .stmt ⟨s₂, t, noCode, hno, hpno, rfl, hD.trans (hle₁.trans hle₂), hnno⟩ hbehind

/-- The body is followed by a jump back to the test. -/
theorem advances_loop {c : Cond} {body : Stmt} (hst : I.Holds D (.loop c body) a b)
    (hrest : I.Follows D rest b) (hsame : w.SameOn D u) (hfits : u.Fits D) :
    I.Advances D (.loop c body) rest w a u := by
  have hagain : I.Follows D (.loop c body :: rest) a := .stmt hst hrest
  obtain ⟨s, t, code, h, hp, rfl, hD, hn⟩ := hst
  obtain ⟨test, s₁, bodyCode, hc, hbody, rfl⟩ := lower_loop_ok h
  simp only [List.append_assoc, List.cons_append, List.nil_append, placed_append, placed_instr,
    placed_mark, placed_nil, and_true] at hp
  obtain ⟨hstart, hptest, hjump₁, hpbody, hjump₂, hend⟩ := hp
  rw [names_loop] at hn
  obtain ⟨hnc, hnbody⟩ := List.forall_mem_append.1 hn
  have hle₀ := NameSupply.scope_mono (s.le_freshLabels 2)
  have hle₁ := hle₀.trans (NameSupply.scope_mono (c.adds_lower hc))
  have hstep : Source.step I.numerics D.find? ⟨.loop c body :: rest, w⟩ =
      (c.eval I.numerics w.store).map
        fun p => ⟨if p then body :: .loop c body :: rest else rest, w⟩ := by
    simp [Source.step, Option.map_eq_bind]
  refine Cond.advances hc hptest (hD.trans hle₀) hnc
    (Installation.line_of_jumpIfZero hjump₁ hend) hstep ?_ ?_ hsame hfits
  · exact .stmt ⟨s₁, t, bodyCode, hbody, hpbody, rfl, hD.trans hle₁, hnbody⟩
      (.jump (Installation.line_of_jump hjump₂ hstart) hagain)
  · simpa [lineCount_append, add_assoc, add_comm, add_left_comm] using hrest

theorem partsAll_append (l m : List Stmt) : partsAll (l ++ m) = partsAll l ++ partsAll m := by
  induction l with
  | nil => rfl
  | cons st l ih => simp [partsAll, ih]

theorem advances_block {body : List Stmt} (hst : I.Holds D (.block body) a b)
    (hrest : I.Follows D rest b) (hsame : w.SameOn D u) :
    I.Advances D (.block body) rest w a u := by
  obtain ⟨s, t, code, h, hp, rfl, hD, hn⟩ := hst
  rw [names_block] at hn
  refine Or.inl ⟨⟨body ++ rest, w⟩, a, u, rfl, .of_lowerAll h hp hD hn hrest, hsame,
    Or.inr ⟨Relation.ReflTransGen.refl, ?_⟩⟩
  simp [Source.size, partsAll, partsAll_append, parts]

end Stmt

/-! ### Switches -/

/-- The head of a switch jumps to the first case with the number of the selector, and without such a
case it is passed. -/
theorem Case.dispatch_runs {G : Scope} {selector : Operand} {dst : String} {first : ℕ}
    {cases : List Case} {n : Int64} (hp : I.Placed a (dispatch selector dst first cases))
    (hsel : selector.HasType G .int) (hdst : G.find? dst = none)
    (hv : u.value selector = some (.int n)) :
    (cases.find? (fun c => c.number == n) = none ∧
      ∃ v, I.Runs G a (a + lineCount (dispatch selector dst first cases)) u v) ∨
    ∃ k c b v, cases.find? (fun c => c.number == n) = some c ∧ cases[k]? = some c ∧
      I.address ⟨first + k⟩ = some b ∧ I.Runs G a b u v := by
  induction cases generalizing first a u with
  | nil => exact Or.inl ⟨rfl, u, Installation.Runs.refl G a u⟩
  | cons c cases ih =>
    obtain ⟨⟨j₁, hj₁, hline₁⟩, ⟨j₂, hj₂, hline₂⟩, hprest⟩ := hp
    obtain rfl := Option.some.inj hj₁
    obtain ⟨b, hb, hj₂⟩ := Option.bind_eq_some_iff.1 hj₂
    obtain rfl := Option.some.inj hj₂
    obtain ⟨u₁, hrun₁, rfl⟩ | ⟨hfalse, -⟩ :=
      Installation.goes_of_compare (D := False) hline₁ hdst hv rfl
    swap
    · exact hfalse.elim
    -- the comparison is for `≠`, so a zero means that the numbers agree
    have hjump := Installation.step_of_jumpIfZero hline₂
      (w := u.set dst (.int (flag (Comparison.ofInts .ne n c.number)))) (by simp; rfl)
    have hrun₂ := hrun₁.trans
      ⟨Relation.ReflTransGen.single hjump, World.SameOn.refl G _⟩
    by_cases hc : c.number = n
    · have hne : Comparison.ofInts .ne n c.number = false := by simp [Comparison.ofInts, hc]
      rw [hne] at hrun₂
      exact Or.inr ⟨0, c, b, _, by simp [hc], rfl, hb, hrun₂⟩
    · have hne : Comparison.ofInts .ne n c.number = true := by
        simpa [Comparison.ofInts] using Ne.symm hc
      rw [hne] at hrun₂
      have hfind : (c :: cases).find? (fun c => c.number == n) =
          cases.find? fun c => c.number == n := by simp [hc]
      rw [hfind]
      rcases ih hprest ((hrun₂.same.value_eq hsel).trans hv) with
        ⟨hnone, v, hrun⟩ | ⟨k, d, b', v, hd, hk, hb', hrun⟩
      · refine Or.inl ⟨hnone, v, ?_⟩
        have hlines : a + lineCount (dispatch selector dst first (c :: cases)) =
            a + 1 + 1 + lineCount (dispatch selector dst (first + 1) cases) := by
          simp only [dispatch, lineCount_append, lineCount_instr, lineCount_nil]
          omega
        rw [hlines]
        exact hrun₂.trans hrun
      · refine Or.inr ⟨k + 1, d, b', v, hd, hk, ?_, hrun₂.trans hrun⟩
        rw [show first + (k + 1) = first + 1 + k by omega]
        exact hb'

theorem Case.lowerDispatch_runs {selector : Operand} {first : ℕ} {cases : List Case} {n : Int64}
    {s t : NameSupply} {code : List Item}
    (h : lowerDispatch selector first cases s = .ok (code, t)) (hp : I.Placed a code)
    (hsel : selector.HasType s.scope .int) (hv : u.value selector = some (.int n)) :
    (cases.find? (fun c => c.number == n) = none ∧
      ∃ v, I.Runs s.scope a (a + lineCount code) u v) ∨
    ∃ k c b v, cases.find? (fun c => c.number == n) = some c ∧ cases[k]? = some c ∧
      I.address ⟨first + k⟩ = some b ∧ I.Runs s.scope a b u v := by
  cases cases with
  | nil =>
    obtain ⟨rfl, rfl⟩ := lowerDispatch_nil_ok h
    exact Or.inl ⟨rfl, u, Installation.Runs.refl _ a u⟩
  | cons c cases =>
    obtain ⟨rfl, rfl⟩ := lowerDispatch_cons_ok h
    exact dispatch_runs hp hsel (s.find?_freshTemp .int) hv

/-- A switch with cases reads its selector. -/
theorem Case.lowerDispatch_sticks {G : Scope} {selector : Operand} {first : ℕ} {c : Case}
    {cases : List Case} {s t : NameSupply} {code : List Item}
    (h : lowerDispatch selector first (c :: cases) s = .ok (code, t)) (hp : I.Placed a code)
    (hv : u.value selector = none) : I.Sticks G a u := by
  obtain ⟨rfl, rfl⟩ := lowerDispatch_cons_ok h
  obtain ⟨⟨j, hj, hline⟩, -⟩ := hp
  obtain rfl := Option.some.inj hj
  exact Installation.sticks_of_exec hline (by simp [Instr.exec, World.fetch, hv])

theorem Case.partsAll_sublist {cases : List Case} {c : Case} (hc : c ∈ cases) :
    (Stmt.partsAll c.body).Sublist (Case.partsAll cases) := by
  induction cases with
  | nil => cases hc
  | cons d cases ih =>
    obtain ⟨number, body⟩ := d
    rw [Case.partsAll]
    rcases List.mem_cons.1 hc with rfl | hc
    · exact List.sublist_append_left _ _
    · exact (ih hc).trans (List.sublist_append_right _ _)

theorem Case.select_sublist (n : Int64) (cases : List Case) (otherwise : List Stmt) :
    (Stmt.partsAll (Case.select n cases otherwise)).Sublist
      (Stmt.partsAll otherwise ++ Case.partsAll cases) := by
  unfold Case.select
  cases hfind : cases.find? fun c => c.number == n with
  | none => exact List.sublist_append_left _ _
  | some c =>
    exact (partsAll_sublist (List.mem_of_find?_eq_some hfind)).trans
      (List.sublist_append_right _ _)

/-- The machine gets to the body that the selector selects. A selector without a value is noticed if
there are cases to compare it with; otherwise it must not be an unassigned variable. -/
theorem Stmt.advances_switch {e : Expr} {cases : List Case} {otherwise : List Stmt}
    (hst : I.Holds D (.switch e cases otherwise) a b) (hrest : I.Follows D rest b)
    (hsame : w.SameOn D u) (hfits : u.Fits D)
    (hready : cases = [] → ∀ y, e.bare? D.find? = some y → w.store y ≠ none) :
    I.Advances D (.switch e cases otherwise) rest w a u := by
  obtain ⟨s, t, code, h, hp, rfl, hD, hn⟩ := hst
  obtain ⟨x, s₁, head, s₂, otherCode, s₃, caseCode, hx, hint, -, hhead, ho, hca, rfl⟩ :=
    lower_switch_ok h
  simp only [List.append_assoc, List.cons_append, List.nil_append, placed_append, placed_instr,
    placed_mark, placed_nil, and_true] at hp
  obtain ⟨hpx, hphead, hpother, hjump, hpcases, hend⟩ := hp
  have hline := Installation.line_of_jump hjump hend
  rw [names_switch] at hn
  obtain ⟨hne, hn⟩ := List.forall_mem_append.1 hn
  obtain ⟨hnother, hncases⟩ := List.forall_mem_append.1 hn
  have hle₁ := NameSupply.scope_mono (e.adds_lower hx)
  have hle₂ := NameSupply.scope_mono ((s₁.le_freshLabel.trans (NameSupply.le_freshLabels _ _)).trans
    (Case.adds_lowerDispatch _ _ _ hhead))
  have hle₃ := NameSupply.scope_mono (adds_lowerAll _ ho)
  have heval : e.eval I.numerics u.store = e.eval I.numerics w.store := hsame.eval_expr hne
  have hbehind : I.Follows D rest (a + lineCount x.code + lineCount head + lineCount otherCode +
      1 + lineCount caseCode) := by
    simpa [lineCount_append, add_assoc, add_comm, add_left_comm] using hrest
  have hsize : ∀ n, Source.size ⟨Case.select n cases otherwise ++ rest, w⟩ <
      Source.size ⟨.switch e cases otherwise :: rest, w⟩ := by
    intro n
    have hlen := (Case.select_sublist n cases otherwise).length_le
    simp only [Source.size, partsAll, partsAll_append, parts, List.length_append,
      List.length_cons] at hlen ⊢
    omega
  rcases e.goes hx hpx hD hfits hne with ⟨u₁, hrun, hv, hbare⟩ | ⟨hnone, hsticks⟩
  swap
  · rw [heval] at hnone
    exact Or.inr ⟨by simp [Source.step, hnone], hsticks.mono hD⟩
  rw [heval] at hv hbare
  have htx := (Expr.lower_typed hx).value
  cases hr : e.eval I.numerics w.store with
  | none =>
    rw [hr] at hv
    refine Or.inr ⟨by simp [Source.step, hr], ?_⟩
    cases cases with
    | nil =>
      -- no instruction reads the selector, so it must not be an unassigned variable
      obtain ⟨y, hy, hnone⟩ := hbare hr
      rw [hsame.store (hne y (Expr.mem_names_of_bare? hy))] at hnone
      exact absurd hnone (hready rfl y hy)
    | cons c cases => exact (hrun.mono hD).sticks (Case.lowerDispatch_sticks hhead hphead hv)
  | some r =>
    rw [hr] at hv
    have hrty : r.ty = .int := hint ▸ Expr.ty_of_eval hfits hne hD hx (heval.trans hr)
    obtain ⟨n, rfl⟩ : ∃ n, r = .int n := by
      cases r with
      | int n => exact ⟨n, rfl⟩
      | float f => cases hrty
    have hstep : Source.step I.numerics D.find? ⟨.switch e cases otherwise :: rest, w⟩ =
        some ⟨Case.select n cases otherwise ++ rest, w⟩ := by simp [Source.step, hr]
    have hsel : x.operand.HasType s₁.scope .int := hint ▸ htx
    obtain ⟨target, v, hfollows, hrun'⟩ : ∃ target v,
        I.Follows D (Case.select n cases otherwise ++ rest) target ∧
        I.Runs s₁.scope (a + lineCount x.code) target u₁ v := by
      rcases Case.lowerDispatch_runs hhead hphead hsel hv with
        ⟨hfind, v, hrun'⟩ | ⟨k, c, target, v, hfind, hk, htarget, hrun'⟩
      · refine ⟨_, v, ?_, hrun'⟩
        rw [Case.select, hfind]
        exact .of_lowerAll ho hpother (hD.trans (hle₁.trans hle₂)) hnother
          (.jump hline hbehind)
      · obtain ⟨target', htarget', hfollows⟩ := Installation.Follows.of_case hca hpcases
          (hD.trans (hle₁.trans (hle₂.trans hle₃))) hncases hend hbehind hk
        obtain rfl := Option.some.inj (htarget.symm.trans htarget')
        refine ⟨target, v, ?_, hrun'⟩
        rw [Case.select, hfind]
        exact hfollows
    have hall := (hrun.mono hD).trans (hrun'.mono (hD.trans hle₁))
    exact Or.inl ⟨_, target, v, hstep, hfollows, hsame.trans hall.same,
      Or.inr ⟨hall.reaches, hsize n⟩⟩

/-- The selector of the switch that comes next, if the switch has no cases and the selector is a
variable without a value. The program sticks there. The machine does not, since it has nothing to
compare the selector with. -/
def Source.overlooked? (types : String → Option Scalar) : Source → Option String
  | ⟨.switch e [] _ :: _, w⟩ => (e.bare? types).filter fun y => (w.store y).isNone
  | _ => none

/-- All variables have a value, or no run from here comes to a selector that is overlooked. -/
def Source.Ready (N : Numerics) (D : Scope) (a : Source) : Prop :=
  (∀ y, D.find? y ≠ none → a.world.store y ≠ none) ∨
    ∀ b, Reaches (Source.step N D.find?) a b → b.overlooked? D.find? = none

theorem Stmt.advances (st : Stmt) (hst : I.Holds D st a b) (hrest : I.Follows D rest b)
    (hsame : w.SameOn D u) (hfits : u.Fits D)
    (hready : Source.Ready I.numerics D ⟨st :: rest, w⟩) : I.Advances D st rest w a u := by
  cases st with
  | assign target e => exact advances_assign hst hrest hsame hfits
  | input target => exact advances_input hst hrest hsame
  | output e => exact advances_output hst hrest hsame hfits
  | ite c yes no => exact advances_ite hst hrest hsame hfits
  | loop c body => exact advances_loop hst hrest hsame hfits
  | switch e cases otherwise =>
    refine advances_switch hst hrest hsame hfits fun hnil y hy hnone => ?_
    obtain ⟨-, -, -, -, -, -, -, hn⟩ := hst
    rcases hready with hassigned | hnever
    · exact hassigned y (hn y (by simp [Expr.mem_names_of_bare? hy])) hnone
    · subst hnil
      have hnext := hnever _ .refl
      simp [Source.overlooked?, hy, hnone] at hnext
  | leave =>
    obtain ⟨s, t, code, h, -⟩ := hst
    exact absurd h not_lower_leave_ok
  | block body => exact advances_block hst hrest hsame

end QuadCode
