import QuadCode.Proofs.Linking

/-!
# Jumps stay inside

A jump of a finished program goes to one of its lines, and only the last line is
a halt. So a run cannot leave the program: it is always at one of its lines.

The main statement is `labels_and_jumps_enclosed`. It starts from the labels of
single trees, since these make the labels of a whole program come out right.
-/

namespace QuadCode

open StateTransition

/-- The only halt of a finished program is its last line, and jumps go to its lines. -/
structure Executable.Enclosed (x : Executable) : Prop where
  halt : ∀ k : ℕ, x.instrs[k]? = some .halt ↔ k + 1 = x.instrs.length
  target : ∀ i ∈ x.instrs, ∀ n, i.target? = some n → n < x.instrs.length

namespace Executable.Enclosed

variable {x : Executable} {N : Numerics}

theorem line_lt_of_step (h : x.Enclosed) {c d : Config} (hstep : c.step N x.instrs = some d) :
    d.line < x.instrs.length := by
  obtain ⟨i, hi, hexec⟩ := Config.step_eq_some_iff.1 hstep
  have hlt : c.line < x.instrs.length := (List.getElem?_eq_some_iff.1 hi).1
  rcases hexec with ⟨hexec, hline⟩ | hexec
  · rcases Instr.control_of_exec hexec with ⟨-, hne⟩ | ⟨l, hl, -⟩ | ⟨hs, -⟩
    · -- the last line is a halt, so there is a line behind one that is none
      have hlast : c.line + 1 ≠ x.instrs.length := fun he =>
        hne (Option.some.inj (hi.symm.trans ((h.halt _).2 he)))
      omega
    · cases hl
    · cases hs
  · rcases Instr.control_of_exec hexec with ⟨hs, -⟩ | ⟨l, hl, htarget⟩ | ⟨hs, -⟩
    · cases hs
    · cases hl
      exact h.target i (List.mem_of_getElem? hi) _ htarget
    · cases hs

theorem line_lt_of_reaches (h : x.Enclosed) {c d : Config} (hc : c.line < x.instrs.length)
    (hreach : Reaches (Config.step N x.instrs) c d) : d.line < x.instrs.length := by
  induction hreach with
  | refl => exact hc
  | tail _ hstep _ => exact h.line_lt_of_step hstep

end Executable.Enclosed

/-- Code that does not halt is enclosed when it is linked. -/
theorem Fragment.enclosed_of_link {f : Fragment} {signature : String} {x : Executable}
    {P : Label → Prop} (h : f.link signature = .ok x) (hf : GoesTo P f.items) : x.Enclosed := by
  have hlen := length_of_link h
  have hlast := halt_of_link h
  constructor
  · intro k
    rw [hlen, Nat.add_right_cancel_iff]
    refine ⟨fun hk => ?_, fun hk => hk ▸ hlast⟩
    have hlt : k < x.instrs.length := (List.getElem?_eq_some_iff.1 hk).1
    by_contra hne
    obtain ⟨j, hj, hgo⟩ := goesTo_of_link h hf (show k < lineCount f.items by omega)
    obtain rfl := Option.some.inj (hk.symm.trans hj)
    exact hgo
  · intro i hi n hn
    obtain ⟨k, hk, rfl⟩ := List.mem_iff_getElem.1 hi
    -- lines of the code, and the halt behind them
    rcases Nat.lt_or_ge k (lineCount f.items) with hlt | hge
    · obtain ⟨j, hj, hgo⟩ := goesTo_of_link h hf hlt
      obtain rfl := Option.some.inj ((List.getElem?_eq_getElem hk).symm.trans hj)
      exact hgo.of_target hn
    · obtain rfl : k = lineCount f.items := by omega
      rw [Option.some.inj ((List.getElem?_eq_getElem hk).symm.trans hlast)] at hn
      simp [Instr.target?] at hn

/-- **Labels and jumps.** The code of every tree is labelled by exactly the labels drawn for it and
jumps to nothing else. So the code of a program numbers its labels from zero, it can be linked, and
no run of the linked program leaves it. -/
theorem labels_and_jumps_enclosed :
    (∀ (e : Expr) (s t : NameSupply) (y : Lowered), e.lower s = .ok (y, t) →
      Labelled s.nextLabel t.nextLabel y.code) ∧
    (∀ (c : Cond) (s t : NameSupply) (y : Lowered), c.lower s = .ok (y, t) →
      Labelled s.nextLabel t.nextLabel y.code) ∧
    (∀ (st : Stmt) (s t : NameSupply) (code : List Item), st.lower s = .ok (code, t) →
      Labelled s.nextLabel t.nextLabel code) ∧
    ∀ (p : Program) (f : Fragment), p.lower = .ok f →
      f.labels.Perm ((List.range p.labelCount).map Label.mk) ∧
      ∀ signature, ∃ x, f.link signature = .ok x ∧ x.Enclosed ∧
        ∀ (N : Numerics) (w : World) (c : Config),
          Reaches (Config.step N x.instrs) ⟨0, w⟩ c → c.line < x.instrs.length := by
  refine ⟨fun e s t y h => Expr.lower_labelled h, fun c s t y h => (Cond.lower_labelled h).1,
    fun st s t code h => (st.labelsWell h).1, fun p f h => ?_⟩
  have hL := Program.labelled h
  refine ⟨hL.perm, fun signature => ?_⟩
  obtain ⟨x, hx⟩ := Program.exists_link h signature
  have henc := Fragment.enclosed_of_link hx hL.jumps
  refine ⟨x, hx, henc, fun N w c hc => henc.line_lt_of_reaches ?_ hc⟩
  rw [Fragment.length_of_link hx]
  exact Nat.succ_pos _

theorem labels_and_jumps_enclosed_sample :
    (∃ y t, (Expr.arith .add (.lit (.int 1)) (.lit (.int 2))).lower {} = .ok (y, t) ∧
      Labelled 0 t.nextLabel y.code) ∧
    (∃ y t, (Cond.and (.rel .lt (.lit (.int 1)) (.lit (.int 2)))
        (.rel .lt (.lit (.int 2)) (.lit (.int 3)))).lower {} = .ok (y, t) ∧
      Labelled 0 t.nextLabel y.code) ∧
    ∃ f s t, Program.sample.lower = .ok f ∧
      (Stmt.block Program.sample.body).lower s = .ok (f.items, t) ∧
      Labelled s.nextLabel t.nextLabel f.items ∧
      f.labels.Perm ((List.range 9).map Label.mk) ∧
      ∃ x, f.link "cpq 0.1.0" = .ok x ∧ x.Enclosed := by
  obtain ⟨hexpr, hcond, hstmt, hprogram⟩ := labels_and_jumps_enclosed
  obtain ⟨⟨y₁, t₁⟩, h₁⟩ := exists_ok_of_isOk
    (r := (Expr.arith .add (.lit (.int 1)) (.lit (.int 2))).lower {}) (by decide +kernel)
  obtain ⟨⟨y₂, t₂⟩, h₂⟩ := exists_ok_of_isOk
    (r := (Cond.and (.rel .lt (.lit (.int 1)) (.lit (.int 2)))
      (.rel .lt (.lit (.int 2)) (.lit (.int 3)))).lower {}) (by decide +kernel)
  obtain ⟨f, hf⟩ := Program.exists_lower_sample
  obtain ⟨t, ht⟩ := Program.lower_ok hf
  obtain ⟨scope, -, hbody⟩ := Program.lowerItems_ok ht
  have hblock : (Stmt.block Program.sample.body).lower { scope } = .ok (f.items, t) := hbody
  obtain ⟨hperm, hlink⟩ := hprogram _ f hf
  obtain ⟨x, hx, henc, -⟩ := hlink "cpq 0.1.0"
  have hcount : Program.sample.labelCount = 9 := by decide +kernel
  exact ⟨⟨y₁, t₁, h₁, hexpr _ _ _ _ h₁⟩, ⟨y₂, t₂, h₂, hcond _ _ _ _ h₂⟩, f, { scope }, t, hf,
    hblock, hstmt _ _ _ _ hblock, hcount ▸ hperm, x, hx, henc⟩

end QuadCode
