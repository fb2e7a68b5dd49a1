import QuadCode.Lowering.Stmt
import QuadCode.Proofs.Syntax
import Mathlib.Data.List.Range
import Mathlib.Order.Basic
import Mathlib.Tactic

/-!
# Fresh names

A scope has fewer names than there are temporaries, so the search for a free one
succeeds, and what it finds is not in use.

* `s ≤ t` for scopes: `t` gives every name of `s` the type that it has in `s`;
* `s ≤ t` for supplies: `t` comes from `s` by drawing temporaries and labels.
  The names that are new in `t` are temporaries;
* `Lower.Adds` says of a lowering step that it only draws names. All of
  lowering does, by `Expr.adds_lower`, `Cond.adds_lower` and `Stmt.adds_lower`.
-/

namespace QuadCode

theorem natRepr_injective : Function.Injective Nat.repr := by
  intro m n h
  have hdigits : Nat.toDigits 10 m = Nat.toDigits 10 n := by
    rw [← Nat.toList_repr, ← Nat.toList_repr, h]
  rw [← Nat.ofDigitChars_ten_toDigits (n := m), hdigits, Nat.ofDigitChars_ten_toDigits]

theorem tempName_injective : Function.Injective tempName := fun _ _ h =>
  natRepr_injective ((String.append_right_inj "_t").1 h)

/-- A name that does not start with an underscore is no temporary. -/
theorem ne_tempName {x : String} (h : x.toList.head? ≠ some '_') (n : ℕ) : x ≠ tempName n := by
  rintro rfl
  simp [tempName] at h

namespace Scope

theorem mem_map_fst_of_contains {s : Scope} {x : String} (h : s.contains x = true) :
    x ∈ s.entries.map Prod.fst := by
  by_contra hx
  have hnone : s.entries.lookup x = none := by
    rw [List.lookup_eq_none_iff]
    intro p hp
    have hne : x ≠ p.1 := fun he => hx (he ▸ List.mem_map_of_mem hp)
    simpa using hne
  simp [contains, find?, hnone] at h

/-- More temporaries than a scope has names cannot all be in use. -/
theorem exists_not_contains (s : Scope) (n : Nat) :
    ∃ k ∈ List.range' n (s.size + 1), s.contains (tempName k) = false := by
  by_contra! hall
  have hsub : (List.range' n (s.size + 1)).map tempName ⊆ s.entries.map Prod.fst := by
    intro x hx
    obtain ⟨k, hk, rfl⟩ := List.mem_map.1 hx
    exact mem_map_fst_of_contains (by simpa using hall k hk)
  have hnodup : ((List.range' n (s.size + 1)).map tempName).Nodup :=
    List.Nodup.map tempName_injective List.nodup_range'
  have hlen := hnodup.length_le_of_subset hsub
  simp [size] at hlen

/-- The search for a temporary ends at a name that is not in use. -/
theorem contains_firstFree (s : Scope) (n : Nat) :
    s.contains (tempName (s.firstFree n)) = false := by
  unfold firstFree
  cases h : (List.range' n s.size).find? fun k => !s.contains (tempName k) with
  | some k => simpa using List.find?_some h
  | none =>
    -- all names looked at are in use, so the one behind them is free
    obtain ⟨k, hk, hfree⟩ := s.exists_not_contains n
    rw [List.range'_concat, List.mem_append, List.mem_singleton] at hk
    rcases hk with hk | rfl
    · exact absurd hfree (by simpa using List.find?_eq_none.1 h k hk)
    · simpa using hfree

theorem find?_firstFree (s : Scope) (n : Nat) :
    s.find? (tempName (s.firstFree n)) = none := by
  have h := s.contains_firstFree n
  simpa [contains] using h

theorem le_firstFree (s : Scope) (n : Nat) : n ≤ s.firstFree n := by
  unfold firstFree
  cases h : (List.range' n s.size).find? fun k => !s.contains (tempName k) with
  | some k => exact (List.mem_range'_1.1 (List.find?_range'_eq_some.1 h).2.1).1
  | none => exact Nat.le_add_right n s.size

/-- The search for a temporary skips names in use only. -/
theorem contains_of_lt_firstFree {s : Scope} {n k : Nat} (hn : n ≤ k) (hk : k < s.firstFree n) :
    s.contains (tempName k) = true := by
  unfold firstFree at hk
  cases h : (List.range' n s.size).find? fun k => !s.contains (tempName k) with
  | some m =>
    rw [h] at hk
    simpa using (List.find?_range'_eq_some.1 h).2.2 k hn hk
  | none =>
    rw [h] at hk
    simpa using List.find?_range'_eq_none.1 h k hn hk

theorem isLeast_firstFree (s : Scope) (n : Nat) :
    IsLeast {k | n ≤ k ∧ s.contains (tempName k) = false} (s.firstFree n) := by
  refine ⟨⟨s.le_firstFree n, s.contains_firstFree n⟩, ?_⟩
  rintro k ⟨hn, hfree⟩
  by_contra! hk
  rw [contains_of_lt_firstFree hn hk] at hfree
  cases hfree

/-- The search for a temporary depends on which temporaries are in use. -/
theorem firstFree_congr {s t : Scope}
    (h : ∀ n, s.contains (tempName n) = t.contains (tempName n)) (n : Nat) :
    s.firstFree n = t.firstFree n := by
  have hs := s.isLeast_firstFree n
  simp only [h] at hs
  exact hs.unique (t.isLeast_firstFree n)

/-- `t` has the names of `s` with their types. -/
instance : Preorder Scope where
  le s t := ∀ ⦃x ty⦄, s.find? x = some ty → t.find? x = some ty
  le_refl _ _ _ h := h
  le_trans _ _ _ hst htu _ _ h := htu (hst h)

theorem find?_ne_none_mono {s t : Scope} (h : s ≤ t) {x : String} (hx : s.find? x ≠ none) :
    t.find? x ≠ none := by
  obtain ⟨ty, hty⟩ := Option.ne_none_iff_exists'.1 hx
  rw [h hty]
  exact Option.some_ne_none ty

theorem find?_of_le {s t : Scope} (h : s ≤ t) {x : String} {ty : Scalar} (hx : s.find? x ≠ none)
    (hty : t.find? x = some ty) : s.find? x = some ty := by
  obtain ⟨ty', hty'⟩ := Option.ne_none_iff_exists'.1 hx
  rw [hty', ← hty, h hty']

theorem le_insert {s : Scope} {x : String} (h : s.find? x = none) (ty : Scalar) :
    s ≤ s.insert x ty := by
  intro y u hy
  rw [find?_insert, if_neg]
  · exact hy
  · rintro rfl
    simp [h] at hy

/-- Declared variables are in scope with the types that they were declared with. -/
theorem find?_of_declareAll {s t : Scope} {vars : List (String × Scalar)}
    (h : s.declareAll vars = .ok t) {x : String} {ty : Scalar} :
    t.find? x = some ty ↔ s.find? x = some ty ∨ (x, ty) ∈ vars := by
  induction vars generalizing s with
  | nil =>
    obtain rfl : s = t := Except.ok.inj h
    simp
  | cons v vars ih =>
    obtain ⟨name, ty'⟩ := v
    rw [declareAll, List.foldlM_cons] at h
    cases hdecl : s.declare name ty' with
    | error e => simp [hdecl, bind, Except.bind] at h
    | ok u =>
      rw [hdecl] at h
      obtain ⟨hnone, rfl⟩ := declare_eq_ok_iff.1 hdecl
      rw [ih h, find?_insert]
      by_cases hx : x = name
      · simp [hx, hnone, eq_comm]
      · simp [hx]

end Scope

/-- The scope of a program gives its variables the types that it declares. -/
theorem Program.find?_of_declareAll {p : Program} {scope : Scope}
    (h : ({} : Scope).declareAll p.declared = .ok scope) (x : String) :
    scope.find? x = p.types x := by
  have hmem : ∀ {ty}, scope.find? x = some ty ↔ (x, ty) ∈ p.declared := by
    intro ty
    simp [Scope.find?_of_declareAll h]
  cases hty : p.types x with
  | some ty =>
    obtain ⟨l₁, l₂, hdecl, -⟩ := List.lookup_eq_some_iff.1 hty
    exact hmem.2 (by simp [hdecl])
  | none =>
    by_contra hne
    obtain ⟨ty, hfind⟩ := Option.ne_none_iff_exists'.1 hne
    exact absurd rfl (bne_iff_ne.1 (List.lookup_eq_none_iff.1 hty _ (hmem.1 hfind)))

namespace NameSupply

/-- `t` comes from `s` by drawing temporaries and labels. -/
structure Draws (s t : NameSupply) : Prop where
  scope : s.scope ≤ t.scope
  temp : ∀ ⦃x⦄, s.scope.find? x = none → t.scope.find? x ≠ none → ∃ n, x = tempName n
  label : s.nextLabel ≤ t.nextLabel

instance : Preorder NameSupply where
  le := Draws
  le_refl _ := ⟨le_rfl, fun _ h h' => absurd h h', le_rfl⟩
  le_trans s t u hst htu := by
    refine ⟨hst.scope.trans htu.scope, fun x hs hu => ?_, hst.label.trans htu.label⟩
    by_cases ht : t.scope.find? x = none
    · exact htu.temp ht hu
    · exact hst.temp hs ht

theorem scope_mono {s t : NameSupply} (h : s ≤ t) : s.scope ≤ t.scope := Draws.scope h

theorem find?_freshTemp (s : NameSupply) (ty : Scalar) :
    s.scope.find? (s.freshTemp ty).1 = none := s.scope.find?_firstFree s.nextTemp

/-- A temporary can be declared, since it is not in use. -/
theorem declare_freshTemp (s : NameSupply) (ty : Scalar) :
    s.scope.declare (s.freshTemp ty).1 ty = .ok (s.freshTemp ty).2.scope :=
  Scope.declare_eq_ok_iff.2 ⟨s.find?_freshTemp ty, rfl⟩

@[simp] theorem freshTemp_find? (s : NameSupply) (ty : Scalar) :
    (s.freshTemp ty).2.scope.find? (s.freshTemp ty).1 = some ty := by simp [freshTemp]

theorem le_freshTemp (s : NameSupply) (ty : Scalar) : s ≤ (s.freshTemp ty).2 := by
  refine ⟨Scope.le_insert (s.find?_freshTemp ty) ty, fun x hx hx' => ?_, le_rfl⟩
  refine ⟨s.scope.firstFree s.nextTemp, ?_⟩
  by_contra hne
  exact hx' (by simpa [freshTemp, Scope.find?_insert, hne] using hx)

@[simp] theorem nextLabel_freshLabels (s : NameSupply) (n : Nat) :
    (s.freshLabels n).2.nextLabel = s.nextLabel + n := rfl

@[simp] theorem nextLabel_freshLabel (s : NameSupply) :
    s.freshLabel.2.nextLabel = s.nextLabel + 1 := rfl

theorem le_freshLabels (s : NameSupply) (n : Nat) : s ≤ (s.freshLabels n).2 :=
  ⟨le_rfl, fun _ h h' => absurd h h', Nat.le_add_right _ _⟩

theorem le_freshLabel (s : NameSupply) : s ≤ s.freshLabel.2 := s.le_freshLabels 1

end NameSupply

/-! ### Steps that only draw names -/

namespace Lower

variable {α β : Type}

/-- A step that only draws names from the supply. -/
def Adds (x : Lower α) : Prop := ∀ ⦃s a t⦄, x s = .ok (a, t) → s ≤ t

theorem adds_pure (a : α) : (pure a : Lower α).Adds := by
  intro s b t h
  obtain ⟨rfl, rfl⟩ := Prod.mk.inj (pure_eq_ok_iff.1 h)
  exact le_rfl

theorem Adds.bind {x : Lower α} {f : α → Lower β} (hx : x.Adds) (hf : ∀ a, (f a).Adds) :
    (x >>= f).Adds := by
  intro s b t h
  obtain ⟨a, u, hu, ht⟩ := bind_eq_ok_iff.1 h
  exact (hx hu).trans (hf a ht)

theorem adds_ofExcept (e : Except Fault α) : (ofExcept e).Adds := by
  intro s a t h
  obtain ⟨-, rfl⟩ := ofExcept_eq_ok_iff.1 h
  exact le_rfl

theorem adds_typeOf (name : String) : (typeOf name).Adds := by
  intro s a t h
  obtain ⟨-, rfl⟩ := typeOf_eq_ok_iff.1 h
  exact le_rfl

theorem adds_freshTemp (ty : Scalar) : (freshTemp ty).Adds := by
  intro s a t h
  obtain ⟨rfl, rfl⟩ := Prod.mk.inj (freshTemp_eq_ok_iff.1 h)
  exact s.le_freshTemp ty

theorem adds_freshFlag : freshFlag.Adds := adds_freshTemp .int

theorem adds_freshLabel : freshLabel.Adds := by
  intro s a t h
  obtain ⟨rfl, rfl⟩ := Prod.mk.inj (freshLabel_eq_ok_iff.1 h)
  exact s.le_freshLabel

theorem adds_freshLabels (n : Nat) : (freshLabels n).Adds := by
  intro s a t h
  obtain ⟨rfl, rfl⟩ := Prod.mk.inj (freshLabels_eq_ok_iff.1 h)
  exact s.le_freshLabels n

end Lower

open Lower

theorem Value.adds_widen (v : Value) (ty : Scalar) : (v.widen ty).Adds := by
  unfold Value.widen
  split
  · exact (adds_freshTemp _).bind fun _ => adds_pure _
  · exact adds_pure _

theorem Lowered.adds_balance (left right : Lowered) : (left.balance right).Adds :=
  (Value.adds_widen _ _).bind fun _ => (Value.adds_widen _ _).bind fun _ => adds_pure _

theorem Expr.adds_lower (e : Expr) : e.lower.Adds := by
  induction e with
  | lit l => exact adds_pure _
  | var name => exact (adds_typeOf name).bind fun _ => adds_pure _
  | arith op l r ihl ihr =>
    exact ihr.bind fun _ => ihl.bind fun _ => (Lowered.adds_balance _ _).bind fun _ =>
      (adds_freshTemp _).bind fun _ => adds_pure _
  | cast ty e ih =>
    refine ih.bind fun x => ?_
    split
    · exact adds_pure _
    · exact (adds_freshTemp _).bind fun _ => adds_pure _

theorem Comparison.adds_lower (op : Comparison) (l r : Expr) : (op.lower l r).Adds :=
  r.adds_lower.bind fun _ => l.adds_lower.bind fun _ => (Lowered.adds_balance _ _).bind fun _ =>
    adds_freshFlag.bind fun _ => adds_pure _

theorem Lowered.adds_disjoin (left right : Lowered) : (left.disjoin right).Adds :=
  adds_freshFlag.bind fun _ => adds_freshFlag.bind fun _ => adds_pure _

theorem Lowered.adds_conjoin (left right : Lowered) : (left.conjoin right).Adds :=
  adds_freshFlag.bind fun _ => adds_freshLabel.bind fun _ => adds_pure _

theorem Lowered.adds_negate (x : Lowered) : x.negate.Adds :=
  adds_freshFlag.bind fun _ => adds_pure _

theorem Comparison.adds_lowerOrEqual (strict : Comparison) (l r : Expr) :
    (strict.lowerOrEqual l r).Adds :=
  (Comparison.adds_lower _ l r).bind fun _ => (strict.adds_lower l r).bind fun _ =>
    Lowered.adds_disjoin _ _

theorem Relation.adds_lower (op : Relation) (l r : Expr) : (op.lower l r).Adds := by
  cases op
  case le => exact Comparison.adds_lowerOrEqual _ l r
  case ge => exact Comparison.adds_lowerOrEqual _ l r
  all_goals exact Comparison.adds_lower _ l r

theorem Cond.adds_lower (c : Cond) : c.lower.Adds := by
  induction c with
  | or l r ihl ihr => exact ihr.bind fun _ => ihl.bind fun _ => Lowered.adds_disjoin _ _
  | and l r ihl ihr => exact ihr.bind fun _ => ihl.bind fun _ => Lowered.adds_conjoin _ _
  | not c ih => exact ih.bind fun _ => Lowered.adds_negate _
  | rel op l r => exact op.adds_lower l r

theorem Case.adds_lowerDispatch (selector : Operand) (first : Nat) (cases : List Case) :
    (Case.lowerDispatch selector first cases).Adds := by
  cases cases with
  | nil => exact adds_pure _
  | cons c cases => exact adds_freshFlag.bind fun _ => adds_pure _

theorem Stmt.adds_lowerAll_of {l : List Stmt} (h : ∀ s ∈ l, s.lower.Adds) :
    (Stmt.lowerAll l).Adds := by
  induction l with
  | nil => exact adds_pure _
  | cons s l ih =>
    obtain ⟨hs, hl⟩ := List.forall_mem_cons.1 h
    exact hs.bind fun _ => (ih hl).bind fun _ => adds_pure _

theorem Case.adds_lowerAll_of (endLabel : Label) {cases : List Case}
    (h : ∀ c ∈ cases, ∀ s ∈ c.body, s.lower.Adds) (first : Nat) :
    (Case.lowerAll endLabel first cases).Adds := by
  induction cases generalizing first with
  | nil => exact adds_pure _
  | cons c cases ih =>
    obtain ⟨number, body⟩ := c
    obtain ⟨hc, hcases⟩ := List.forall_mem_cons.1 h
    exact (Stmt.adds_lowerAll_of hc).bind fun _ => (ih hcases _).bind fun _ => adds_pure _

theorem Stmt.adds_lower (s : Stmt) : s.lower.Adds := by
  induction s using Stmt.induction with
  | assign target e =>
    exact e.adds_lower.bind fun _ => (adds_typeOf _).bind fun _ => (adds_ofExcept _).bind fun _ =>
      adds_pure _
  | input target => exact (adds_typeOf _).bind fun _ => adds_pure _
  | output e => exact e.adds_lower.bind fun _ => adds_pure _
  | ite c yes no ihyes ihno =>
    exact adds_freshLabel.bind fun _ => adds_freshLabel.bind fun _ => adds_freshLabel.bind fun _ =>
      c.adds_lower.bind fun _ => ihyes.bind fun _ => ihno.bind fun _ => adds_pure _
  | loop c body ih =>
    exact adds_freshLabel.bind fun _ => adds_freshLabel.bind fun _ => c.adds_lower.bind fun _ =>
      ih.bind fun _ => adds_pure _
  | switch e cases otherwise ihcases ihother =>
    exact e.adds_lower.bind fun _ => (adds_ofExcept _).bind fun _ => (adds_ofExcept _).bind fun _ =>
      adds_freshLabel.bind fun _ => (adds_freshLabels _).bind fun _ =>
      (Case.adds_lowerDispatch _ _ _).bind fun _ => (Stmt.adds_lowerAll_of ihother).bind fun _ =>
      (Case.adds_lowerAll_of _ ihcases _).bind fun _ => adds_pure _
  | leave => exact adds_ofExcept _
  | block body ih => exact Stmt.adds_lowerAll_of ih

theorem Stmt.adds_lowerAll (l : List Stmt) : (Stmt.lowerAll l).Adds :=
  Stmt.adds_lowerAll_of fun s _ => s.adds_lower

theorem Case.adds_lowerAll (endLabel : Label) (first : Nat) (cases : List Case) :
    (Case.lowerAll endLabel first cases).Adds :=
  Case.adds_lowerAll_of endLabel (fun _ _ s _ => s.adds_lower) first

end QuadCode
