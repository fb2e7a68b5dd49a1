import QuadCode.Proofs.Evaluation
import QuadCode.Proofs.Symbolic
import QuadCode.Proofs.Temporaries

/-!
# Code that only computes

The code of an expression or a condition is run by itself, from its first entry
to its last. It may have been lowered with any names in scope and any numbers
given out before; the store has values for the names in scope, and anything at
all for other names.

* `World.Provides G w`: the names in scope have values of their types;
* `Computes`: the code sticks exactly if there is no result. Otherwise it runs
  to its end, reads no input, writes no output and changes no name in scope.

The main statement is `lowered_code_computes_value`. It has one exception: a
temporary that is drawn for one operand comes into scope for the other, so a
tree may mention a name that was not in scope. Such a name is read from the
temporary, whatever the store has for it.
-/

namespace QuadCode

open StateTransition

/-- Every name in scope has a value of its type. -/
def World.Provides (G : Scope) (w : World) : Prop :=
  ∀ ⦃y ty⦄, G.find? y = some ty → ∃ v, w.store y = some v ∧ v.ty = ty

theorem World.Provides.fits {G : Scope} {w : World} (hw : w.Provides G) : w.Fits G := by
  intro y v ty hy hty
  obtain ⟨v', hv', rfl⟩ := hw hty
  rw [Option.some.inj (hy.symm.trans hv')]

theorem World.Provides.store_ne_none {G : Scope} {w : World} (hw : w.Provides G) {y : String}
    (hy : G.find? y ≠ none) : w.store y ≠ none := by
  obtain ⟨ty, hty⟩ := Option.ne_none_iff_exists'.1 hy
  obtain ⟨v, hv, -⟩ := hw hty
  simp [hv]

/-- The code computes a result, if there is one, and does nothing else. -/
structure Computes {α : Type} (N : Numerics) (G : Scope) (code : List Item) (w : World)
    (result : Option α) (Q : α → World → Prop) : Prop where
  /-- The run sticks exactly if there is no result. -/
  stuck_iff : (∃ c ∈ eval (Cursor.step N code) ⟨0, w⟩, c.Stuck N code) ↔ result = none
  /-- With a result it comes to the end of the code, and the world is the same as before but for
  names that are not in scope. -/
  ends : ∀ r, result = some r →
    ∃ u, ⟨code.length, u⟩ ∈ eval (Cursor.step N code) ⟨0, w⟩ ∧ w.SameOn G u ∧ Q r u

/-! ### The end of the code -/

namespace Cursor

variable {N : Numerics} {items : List Item} {c d : Cursor}

theorem position_le_of_step (h : c.step N items = some d) : d.position ≤ items.length := by
  unfold step at h
  split at h
  · cases h
  · rename_i l hl
    obtain rfl := Option.some.inj h
    exact (List.getElem?_eq_some_iff.1 hl).1
  · rename_i i hi
    obtain ⟨⟨control, u⟩, -, hd⟩ := Option.bind_eq_some_iff.1 h
    cases control with
    | next =>
      obtain rfl := Option.some.inj hd
      exact (List.getElem?_eq_some_iff.1 hi).1
    | goto l =>
      obtain ⟨p, hp, rfl⟩ := Option.map_eq_some_iff.1 hd
      exact (List.findIdx?_eq_some_iff_getElem.1 hp).1.le
    | stop => cases hd

theorem position_le_of_reaches (h : Reaches (step N items) c d) (hc : c.position ≤ items.length) :
    d.position ≤ items.length := by
  induction h with
  | refl => exact hc
  | tail _ hstep _ => exact position_le_of_step hstep

/-- Code without a halt ends behind its last entry. -/
theorem position_eq_of_halted {P : Label → Prop} (hitems : GoesTo P items) (hc : c.Halted items)
    (hle : c.position ≤ items.length) : c.position = items.length := by
  rcases hc with hnone | hhalt
  · exact le_antisymm hle (List.getElem?_eq_none_iff.1 hnone)
  · have hmem : Instr.halt ∈ instrsIn items :=
      List.mem_filterMap.2 ⟨_, List.mem_of_getElem? hhalt, rfl⟩
    exact (hitems _ hmem).elim

end Cursor

/-- Code that computes a result wherever it is installed does so by itself. -/
theorem computes_of_goes {α : Type} {N : Numerics} {G H : Scope} {code : List Item} {w : World}
    {result : Option α} {Q : α → World → Prop} {n m : ℕ} (hlabels : Labelled n m code)
    (htyped : Typed H code)
    (hgoes : ∀ I : Installation, I.numerics = N → I.Placed 0 code →
      I.Goes G 0 (0 + lineCount code) w (fun u => ∃ r, result = some r ∧ Q r u) (result = none)) :
    Computes N G code w result Q := by
  -- link the code, so that it is installed at line zero and followed by a halt
  obtain ⟨x, hx⟩ := Fragment.exists_link (f := { items := code }) hlabels.nodup
    (fun i hi l hl => hlabels.mem_iff.2 ((hlabels.jumps i hi).of_target hl)) ""
  have hsim := Fragment.simulation_of_link hx N
  have hstart : (⟨0, w⟩ : Config) = Cursor.config code ⟨0, w⟩ := rfl
  have hends : ∀ d ∈ eval (Config.step N x.instrs) ⟨0, w⟩,
      ∃ c ∈ eval (Cursor.step N code) ⟨0, w⟩, d.world = c.world ∧
        (c.Halted code ↔ d.Halted x.instrs) := fun d hd => hsim.mem_eval_rev hstart hd
  rcases hgoes ⟨N, x.instrs, fun l => l.addressIn? code, H, Fragment.wellTyped_of_link hx htyped⟩
    rfl (Fragment.placed_of_link hx) with ⟨u, hrun, r, hr, hQ⟩ | ⟨hnone, d, hd, hstuck, -⟩
  · have hhalt : Config.Halted x.instrs ⟨0 + lineCount code, u⟩ := by
      rw [zero_add]
      exact Fragment.halt_of_link hx
    obtain ⟨⟨p, v⟩, hc, hv, hiff⟩ :=
      hends _ (StateTransition.mem_eval.2 ⟨hrun.reaches, Config.step_of_halted hhalt⟩)
    obtain rfl : u = v := hv
    have hhalted := hiff.2 hhalt
    obtain rfl : p = code.length := Cursor.position_eq_of_halted hlabels.jumps hhalted
      (Cursor.position_le_of_reaches (StateTransition.mem_eval.1 hc).1 (Nat.zero_le _))
    constructor
    · refine iff_of_false ?_ (by simp [hr])
      rintro ⟨c, hc', -, hnot⟩
      exact hnot (Part.mem_unique hc hc' ▸ hhalted)
    · intro r' hr'
      obtain rfl := Option.some.inj (hr.symm.trans hr')
      exact ⟨u, hc, hrun.same, hQ⟩
  · obtain ⟨c, hc, -, hiff⟩ := hends d (StateTransition.mem_eval.2 ⟨hd, hstuck.1⟩)
    constructor
    · refine iff_of_true ⟨c, hc, (StateTransition.mem_eval.1 hc).2, fun hh => ?_⟩ hnone
      exact hstuck.2 (hiff.1 hh)
    · intro r hr
      rw [hnone] at hr
      cases hr

/-! ### Expressions and conditions -/

variable {s t : NameSupply}

theorem Expr.computes (N : Numerics) {e : Expr} {x : Lowered} {w : World}
    (h : e.lower s = .ok (x, t)) (hw : w.Provides s.scope)
    (hn : ∀ y ∈ e.names, s.scope.find? y ≠ none) :
    Computes N s.scope x.code w (e.eval N w.store)
      fun v u => u.value x.operand = some v ∧ v.ty = x.ty := by
  refine computes_of_goes (Expr.lower_labelled h) (Expr.lower_typed h).code ?_
  rintro I rfl hp
  refine (e.goes h hp le_rfl hw.fits hn).imp ?_ id
  rintro u - ⟨hu, hbare⟩
  cases hv : e.eval I.numerics w.store with
  | none =>
    -- all variables have values, so the machine has stuck before
    obtain ⟨y, hy, hnone⟩ := hbare hv
    exact absurd hnone (hw.store_ne_none (hn y (Expr.mem_names_of_bare? hy)))
  | some v => exact ⟨v, rfl, hu.trans hv, Expr.ty_of_eval hw.fits hn le_rfl h hv⟩

/-- The value of a condition is in an integer variable. -/
theorem Cond.exists_name_of_lower {c : Cond} {x : Lowered} (h : c.lower s = .ok (x, t)) :
    ∃ name, x.value = ⟨.var name, .int⟩ := by
  have hdisjoin : ∀ {left right : Lowered} {u : NameSupply},
      left.disjoin right u = .ok (x, t) → ∃ name, x.value = ⟨.var name, .int⟩ := by
    intro left right u hx
    obtain ⟨-, rfl⟩ := Lowered.disjoin_ok hx
    exact ⟨_, rfl⟩
  cases c with
  | or l r =>
    simp only [Cond.lower, Lower.bind_eq_ok_iff] at h
    obtain ⟨right, s₁, -, left, s₂, -, hx⟩ := h
    exact hdisjoin hx
  | and l r =>
    simp only [Cond.lower, Lower.bind_eq_ok_iff] at h
    obtain ⟨right, s₁, -, left, s₂, -, hx⟩ := h
    obtain ⟨-, rfl⟩ := Lowered.conjoin_ok hx
    exact ⟨_, rfl⟩
  | not c =>
    simp only [Cond.lower, Lower.bind_eq_ok_iff] at h
    obtain ⟨y, u, -, hx⟩ := h
    obtain ⟨-, rfl⟩ := Lowered.negate_ok hx
    exact ⟨_, rfl⟩
  | rel op l r =>
    have hcompare : ∀ {op : Comparison}, op.lower l r s = .ok (x, t) →
        ∃ name, x.value = ⟨.var name, .int⟩ := by
      intro op hx
      obtain ⟨ops, u, -, -, rfl⟩ := Comparison.lower_ok hx
      exact ⟨_, rfl⟩
    have horEqual : ∀ {strict : Comparison}, strict.lowerOrEqual l r s = .ok (x, t) →
        ∃ name, x.value = ⟨.var name, .int⟩ := by
      intro strict hx
      simp only [Comparison.lowerOrEqual, Lower.bind_eq_ok_iff] at hx
      obtain ⟨equal, s₁, -, less, s₂, -, hx⟩ := hx
      exact hdisjoin hx
    cases op
    case le => exact horEqual h
    case ge => exact horEqual h
    all_goals exact hcompare h

theorem Cond.computes (N : Numerics) {c : Cond} {x : Lowered} {name : String} {w : World}
    (h : c.lower s = .ok (x, t)) (hx : x.value = ⟨.var name, .int⟩) (hw : w.Provides s.scope)
    (hn : ∀ y ∈ c.names, s.scope.find? y ≠ none) :
    Computes N s.scope x.code w (c.eval N w.store)
      fun p u => u.store name = some (.int (flag p)) := by
  refine computes_of_goes (Cond.lower_labelled h).1 (Cond.lower_typed h).1.code ?_
  rintro I rfl hp
  refine (Cond.goes h hp le_rfl hw.fits hn).imp ?_ id
  rintro u - ⟨p, hp, hu⟩
  rw [Lowered.operand, hx] at hu
  exact ⟨p, hp, hu⟩

/-- A name that lowered code uses was in scope, or it is a temporary drawn on the way. -/
theorem Accounts.exists_temp {names targets : List String} {code : List Item} {y : String}
    (h : Accounts names targets s t code) (hy : y ∈ names) (hs : s.scope.find? y = none) :
    ∃ n, y = tempName n ∧ s.Gains t y := by
  have hgains : s.Gains t y := ⟨hs, h.inScope y hy⟩
  obtain ⟨n, hn⟩ := h.le.temp hs hgains.2
  exact ⟨n, hn, hgains⟩

/-- **Values are computed without effects.** Lower an expression or a condition with any names in
scope, and run its code in a store with values for these names. The code sticks exactly if the tree
has no value. Otherwise it runs to its end, with the input, the output and all names in scope as
before, and the value is where lowering says: that of an expression has its type, that of a
condition is `1` or `0` in an integer variable. This fails only for a tree that mentions a name
which was not in scope and is that of a temporary drawn for the tree itself. -/
theorem lowered_code_computes_value (N : Numerics) {s : NameSupply} {w : World}
    (hw : w.Provides s.scope) :
    (∀ e x t, Expr.lower e s = .ok (x, t) →
      (∃ y ∈ e.names, ∃ n, y = tempName n ∧ s.Gains t y) ∨
      Computes N s.scope x.code w (e.eval N w.store)
        fun v u => u.value x.operand = some v ∧ v.ty = x.ty) ∧
    ∀ c x t, Cond.lower c s = .ok (x, t) →
      (∃ y ∈ c.names, ∃ n, y = tempName n ∧ s.Gains t y) ∨
      ∃ name, x.value = ⟨.var name, .int⟩ ∧
        Computes N s.scope x.code w (c.eval N w.store)
          fun p u => u.store name = some (.int (flag p)) := by
  constructor
  · intro e x t h
    by_cases hn : ∀ y ∈ e.names, s.scope.find? y ≠ none
    · exact Or.inr (Expr.computes N h hw hn)
    · push Not at hn
      obtain ⟨y, hy, hnone⟩ := hn
      exact Or.inl ⟨y, hy, (Expr.lower_accounts h).exists_temp hy hnone⟩
  · intro c x t h
    by_cases hn : ∀ y ∈ c.names, s.scope.find? y ≠ none
    · obtain ⟨name, hx⟩ := Cond.exists_name_of_lower h
      exact Or.inr ⟨name, hx, Cond.computes N h hx hw hn⟩
    · push Not at hn
      obtain ⟨y, hy, hnone⟩ := hn
      exact Or.inl ⟨y, hy, (Cond.lower_accounts h).exists_temp hy hnone⟩

theorem lowered_code_computes_value_conjunction :
    ∃ x t name u,
      (Cond.and (.rel .le (.var "n") (.lit (.int 3)))
        (.not (.rel .eq (.var "_t0") (.arith .add (.var "n") (.lit (.int 2)))))).lower
          ⟨⟨[("_t0", .int), ("n", .int)]⟩, 0, 7⟩ = .ok (x, t) ∧
      x.value = ⟨.var name, .int⟩ ∧
      ⟨x.code.length, u⟩ ∈ eval (Cursor.step .words x.code)
        ⟨0, ⟨fun y => some (.int (if y = "n" then 3 else 4)), [], []⟩⟩ ∧
      u.store name = some (.int 1) := by
  have hw : World.Provides ⟨[("_t0", .int), ("n", .int)]⟩
      ⟨fun y => some (.int (if y = "n" then 3 else 4)), [], []⟩ := by
    intro y ty hty
    obtain ⟨before, after, hentries, -⟩ := List.lookup_eq_some_iff.1 hty
    have hint : ∀ p ∈ [("_t0", Scalar.int), ("n", Scalar.int)], p.2 = .int := by decide
    have hmem : (y, ty) ∈ before ++ (y, ty) :: after := by simp
    rw [← hentries] at hmem
    exact ⟨_, rfl, (hint _ hmem).symm⟩
  have hscope : ∀ y ∈ ["n", "_t0", "n"],
      Scope.find? ⟨[("_t0", .int), ("n", .int)]⟩ y ≠ none := by decide
  obtain ⟨⟨x, t⟩, hx⟩ := exists_ok_of_isOk
    (r := (Cond.and (.rel .le (.var "n") (.lit (.int 3)))
      (.not (.rel .eq (.var "_t0") (.arith .add (.var "n") (.lit (.int 2)))))).lower
        ⟨⟨[("_t0", .int), ("n", .int)]⟩, 0, 7⟩) (by decide +kernel)
  rcases (lowered_code_computes_value .words hw).2 _ x t hx with
    ⟨y, hy, n, -, hnone, -⟩ | ⟨name, hname, hcomputes⟩
  · exact absurd hnone (hscope y hy)
  · obtain ⟨u, hu, -, hflag⟩ := hcomputes.ends true (by decide +kernel)
    exact ⟨x, t, name, u, hx, hname, hu, hflag⟩

/-- The name `_t0` has no value, so the sum has none, and yet its code runs to the end: the name is
read from the temporary of the right operand. -/
theorem operand_read_from_temporary :
    ∃ x t,
      (Expr.arith .add (.var "_t0") (.arith .add (.lit (.int 1)) (.lit (.int 2)))).lower {} =
        .ok (x, t) ∧
      World.Provides {} ⟨fun _ => none, [], []⟩ ∧
      (Expr.arith .add (.var "_t0") (.arith .add (.lit (.int 1)) (.lit (.int 2)))).eval .words
        (fun _ => none) = none ∧
      ∃ u, ⟨x.code.length, u⟩ ∈ eval (Cursor.step .words x.code) ⟨0, ⟨fun _ => none, [], []⟩⟩ ∧
        u.value x.operand = some (.int 6) := by
  refine ⟨⟨[.instr (.arith .add .int "_t0" (.lit (.int 1)) (.lit (.int 2))),
    .instr (.arith .add .int "_t1" (.var "_t0") (.var "_t0"))], ⟨.var "_t1", .int⟩⟩, _, rfl,
    by simp [World.Provides], rfl, ⟨Function.update (Function.update (fun _ => none) "_t0"
      (some (.int 3))) "_t1" (some (.int 6)), [], []⟩, ?_, ?_⟩
  · exact StateTransition.mem_eval.2 ⟨.head rfl (.head rfl .refl), rfl⟩
  · rfl

end QuadCode
