import Mathlib.Computability.StateTransition
import Mathlib.Data.List.Infix
import Mathlib.Tactic

/-!
# Simulations

Two transition systems run in parallel: whatever the first does in a step, the
second does in any number of steps. It may also do nothing, but then the state
of the first gets smaller, so this cannot go on for ever.

* `Simulation.mem_eval`, `Simulation.mem_eval_rev`: a run of one system ends
  exactly if the run of the other does, and the last states correspond;
* `Simulation.output_iff`: runs that do not end write the same output too.
-/

namespace QuadCode

open StateTransition

variable {σ τ α : Type}

/-- `g` simulates `f`: related states stay related, and `f` stops in states where `g` can run on to
a state that is related by `Final`, where it stops. -/
structure Simulation (f : σ → Option σ) (g : τ → Option τ) (R Final : σ → τ → Prop)
    (size : σ → ℕ) : Prop where
  step : ∀ ⦃a a' b⦄, R a b → f a = some a' →
    ∃ b', R a' b' ∧ (Reaches₁ g b b' ∨ Reaches g b b' ∧ size a' < size a)
  stop : ∀ ⦃a b⦄, R a b → f a = none → ∃ b' ∈ eval g b, Final a b'

namespace Simulation

variable {f : σ → Option σ} {g : τ → Option τ} {R Final : σ → τ → Prop} {size : σ → ℕ}

theorem reaches (h : Simulation f g R Final size) {a a' : σ} {b : τ} (hR : R a b)
    (ha : Reaches f a a') : ∃ b', R a' b' ∧ Reaches g b b' := by
  induction ha with
  | refl => exact ⟨b, hR, Relation.ReflTransGen.refl⟩
  | tail _ hstep ih =>
    obtain ⟨c, hc, hbc⟩ := ih
    obtain ⟨b', hb', hcb⟩ := h.step hc hstep
    rcases hcb with hcb | ⟨hcb, -⟩
    · exact ⟨b', hb', hbc.trans hcb.to_reflTransGen⟩
    · exact ⟨b', hb', hbc.trans hcb⟩

theorem mem_eval (h : Simulation f g R Final size) {a a' : σ} {b : τ} (hR : R a b)
    (ha : a' ∈ eval f a) : ∃ b' ∈ eval g b, Final a' b' := by
  obtain ⟨hreach, hnone⟩ := StateTransition.mem_eval.1 ha
  obtain ⟨c, hc, hbc⟩ := h.reaches hR hreach
  rw [reaches_eval hbc]
  exact h.stop hc hnone

/-- From related states `g` moves on or stops, since `f` cannot get smaller for ever. -/
theorem progress (h : Simulation f g R Final size) {a : σ} {b : τ} (hR : R a b) :
    (∃ a' b', Reaches f a a' ∧ R a' b' ∧ Reaches₁ g b b') ∨
      ∃ a' ∈ eval f a, ∃ b' ∈ eval g b, Final a' b' := by
  induction hn : size a using Nat.strong_induction_on generalizing a b with
  | _ n ih =>
    subst hn
    cases hf : f a with
    | none =>
      obtain ⟨b', hb', hfin⟩ := h.stop hR hf
      exact Or.inr ⟨a, StateTransition.mem_eval.2 ⟨Relation.ReflTransGen.refl, hf⟩, b', hb', hfin⟩
    | some a' =>
      have hone : Reaches f a a' := Relation.ReflTransGen.single hf
      obtain ⟨c, hc, hbc | ⟨hbc, hlt⟩⟩ := h.step hR hf
      · exact Or.inl ⟨a', c, hone, hc, hbc⟩
      -- `g` may not have moved, but the state of `f` is smaller
      rcases ih _ hlt hc rfl with ⟨a₁, b₁, ha₁, hR₁, hb₁⟩ | ⟨a₁, ha₁, b₁, hb₁, hfin⟩
      · exact Or.inl ⟨a₁, b₁, hone.trans ha₁, hR₁, Relation.TransGen.trans_right hbc hb₁⟩
      · refine Or.inr ⟨a₁, ?_, b₁, ?_, hfin⟩
        · rwa [reaches_eval hone]
        · rwa [reaches_eval hbc]

/-- From every state that `g` reaches it goes on to one that belongs to a state of `f`. -/
theorem reaches_rev (h : Simulation f g R Final size) {a : σ} {b b' : τ} (hR : R a b)
    (hb : Reaches g b b') :
    ∃ a₁ b₁, Reaches f a a₁ ∧ Reaches g b' b₁ ∧
      (R a₁ b₁ ∨ f a₁ = none ∧ g b₁ = none ∧ Final a₁ b₁) := by
  induction hb with
  | refl => exact ⟨a, b, Relation.ReflTransGen.refl, Relation.ReflTransGen.refl, Or.inl hR⟩
  | @tail c d _ hcd ih =>
    obtain ⟨a₁, b₁, ha₁, hb₁, hrel⟩ := ih
    -- either `c` is itself the state that was found, or `d` is the next on the way there
    rcases Relation.ReflTransGen.cases_head hb₁ with rfl | ⟨d', hd', hdb⟩
    · rcases hrel with hrel | ⟨-, hnone, -⟩
      · rcases h.progress hrel with ⟨a₂, b₂, ha₂, hR₂, hb₂⟩ | ⟨a₂, ha₂, b₂, hb₂, hfin⟩
        · exact ⟨a₂, b₂, ha₁.trans ha₂, reaches₁_fwd hb₂ hcd, Or.inl hR₂⟩
        · obtain ⟨hfa, hfnone⟩ := StateTransition.mem_eval.1 ha₂
          rw [reaches_eval (Relation.ReflTransGen.single hcd)] at hb₂
          obtain ⟨hgb, hgnone⟩ := StateTransition.mem_eval.1 hb₂
          exact ⟨a₂, b₂, ha₁.trans hfa, hgb, Or.inr ⟨hfnone, hgnone, hfin⟩⟩
      · exact absurd (hnone.symm.trans hcd) (by simp)
    · cases Option.mem_unique hcd hd'
      exact ⟨a₁, b₁, ha₁, hdb, hrel⟩

theorem mem_eval_rev (h : Simulation f g R Final size) {a : σ} {b b' : τ} (hR : R a b)
    (hb : b' ∈ eval g b) : ∃ a' ∈ eval f a, Final a' b' := by
  obtain ⟨hreach, hnone⟩ := StateTransition.mem_eval.1 hb
  obtain ⟨a₁, b₁, ha₁, hb₁, hrel⟩ := h.reaches_rev hR hreach
  -- `g` stops in `b'`, so it has gone no further
  have hb₁' : b₁ = b' := (eval_maximal hb).1 hb₁
  subst hb₁'
  rcases hrel with hrel | ⟨hfnone, -, hfin⟩
  · rcases h.progress hrel with ⟨a₂, b₂, -, -, hb₂⟩ | ⟨a₂, ha₂, b₂, hb₂, hfin⟩
    · exact absurd hb₂ (eval_maximal₁ hb b₂)
    · rw [reaches_eval ha₁]
      rw [reaches_eval hreach] at hb
      cases Part.mem_unique hb hb₂
      exact ⟨a₂, ha₂, hfin⟩
  · exact ⟨a₁, StateTransition.mem_eval.2 ⟨ha₁, hfnone⟩, hfin⟩

end Simulation

/-! ### Runs that end -/

section

variable {f : σ → Option σ} {P : σ → Prop} {a a' : σ}

/-- What holds in a state and in all that are reached from the next one holds in all that are
reached. -/
theorem forall_reaches_of_some (h : f a = some a') (ha : P a) (ha' : ∀ b, Reaches f a' b → P b) :
    ∀ b, Reaches f a b → P b := by
  intro b hb
  rcases Relation.ReflTransGen.cases_head hb with rfl | ⟨c, hc, hcb⟩
  · exact ha
  · obtain rfl := Option.some.inj (h.symm.trans hc)
    exact ha' b hcb

theorem forall_reaches_of_none (h : f a = none) (ha : P a) : ∀ b, Reaches f a b → P b := by
  intro b hb
  rcases Relation.ReflTransGen.cases_head hb with rfl | ⟨c, hc, -⟩
  · exact ha
  · cases h.symm.trans hc

end

/-! ### Output -/

/-- A step writes at most one entry at the end of the output. -/
def Appends (f : σ → Option σ) (out : σ → List α) : Prop :=
  ∀ ⦃a a'⦄, f a = some a' → out a' = out a ∨ ∃ v, out a' = out a ++ [v]

namespace Appends

variable {f : σ → Option σ} {out : σ → List α}

theorem prefix_of_reaches (h : Appends f out) {a a' : σ} (ha : Reaches f a a') :
    out a <+: out a' := by
  induction ha with
  | refl => exact List.prefix_rfl
  | tail _ hstep ih =>
    rcases h hstep with he | ⟨v, he⟩
    · rwa [he]
    · rw [he]
      exact ih.trans (List.prefix_append _ _)

/-- Output grows entry by entry: whatever lies between two outputs of a run is one. -/
theorem exists_output_eq (h : Appends f out) {a a' : σ} {o : List α} (ha : Reaches f a a')
    (hlo : out a <+: o) (hhi : o <+: out a') : ∃ c, Reaches f a c ∧ out c = o := by
  induction ha with
  | refl => exact ⟨a, Relation.ReflTransGen.refl, hlo.eq_of_length_le hhi.length_le⟩
  | @tail c d hac hcd ih =>
    rcases h hcd with he | ⟨v, he⟩
    · exact ih (he ▸ hhi)
    · rw [he, List.prefix_concat_iff] at hhi
      rcases hhi with rfl | hhi
      · exact ⟨d, hac.tail hcd, he⟩
      · exact ih hhi

end Appends

/-- Systems in simulation write the same output, whether or not their runs end. -/
theorem Simulation.output_iff {f : σ → Option σ} {g : τ → Option τ} {R Final : σ → τ → Prop}
    {size : σ → ℕ} (h : Simulation f g R Final size) {outf : σ → List α} {outg : τ → List α}
    (hf : Appends f outf) (hg : Appends g outg) (hR : ∀ ⦃a b⦄, R a b → outf a = outg b)
    (hF : ∀ ⦃a b⦄, Final a b → outf a = outg b) {a : σ} {b : τ} (hab : R a b) (o : List α) :
    (∃ a', Reaches f a a' ∧ outf a' = o) ↔ ∃ b', Reaches g b b' ∧ outg b' = o := by
  constructor
  · rintro ⟨a', ha', rfl⟩
    obtain ⟨b', hR', hb'⟩ := h.reaches hab ha'
    exact ⟨b', hb', (hR hR').symm⟩
  · rintro ⟨b', hb', rfl⟩
    obtain ⟨a₁, b₁, ha₁, hb₁, hrel⟩ := h.reaches_rev hab hb'
    -- the output in `b'` lies between those in `b` and `b₁`, so `f` has it on the way to `a₁`
    have hout : outf a₁ = outg b₁ := hrel.elim (fun hr => hR hr) fun hr => hF hr.2.2
    refine hf.exists_output_eq ha₁ ?_ ?_
    · rw [hR hab]
      exact hg.prefix_of_reaches hb'
    · rw [hout]
      exact hg.prefix_of_reaches hb₁

end QuadCode
